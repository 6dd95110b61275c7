import IdlLexis.Byte
/-!
Offsets into a text are numbers of 32 bits. Arithmetic on them, and reads at them, either
stay in range or end in a `Fault`; nothing wraps around.
-/

namespace IdlLexis

inductive Fault
  | outsideText
  | badRange
  | offsetOverflow
  | offsetUnderflow
  deriving DecidableEq, Repr

namespace Offset

def limit : Nat := 0x100000000

def add (a b : Nat) : Except Fault Nat :=
  if a + b < limit then .ok (a + b) else .error .offsetOverflow

def sub (a b : Nat) : Except Fault Nat :=
  if b ≤ a then .ok (a - b) else .error .offsetUnderflow

theorem add_of_lt {a b : Nat} (h : a + b < limit) : add a b = .ok (a + b) := if_pos h

theorem sub_of_le {a b : Nat} (h : b ≤ a) : sub a b = .ok (a - b) := if_pos h

theorem add_eq_ok {a b c : Nat} (h : add a b = .ok c) : c = a + b ∧ c < limit := by
  unfold add at h
  split at h
  · cases h
    exact ⟨rfl, by assumption⟩
  · contradiction

theorem sub_eq_ok {a b c : Nat} (h : sub a b = .ok c) : c = a - b ∧ b ≤ a := by
  unfold sub at h
  split at h
  · cases h
    exact ⟨rfl, by assumption⟩
  · contradiction

end Offset

/-! A run of fallible steps succeeds exactly when each of its steps does. -/

namespace Fault

variable {α β : Type} {step : Except Fault α}

@[simp] theorem ok_bind (value : α) (next : α → Except Fault β) :
    (Except.ok value >>= next) = next value := rfl

@[simp] theorem map_ok (f : α → β) (value : α) :
    f <$> (Except.ok value : Except Fault α) = .ok (f value) := rfl

theorem eq_ok_of_toOption {value : α} (h : step.toOption = some value) : step = .ok value := by
  cases step with
  | error fault => contradiction
  | ok found => exact congrArg Except.ok (Option.some.inj h)

theorem bind_eq_ok {next : α → Except Fault β} {result : β} :
    (step >>= next) = .ok result ↔ ∃ value, step = .ok value ∧ next value = .ok result := by
  cases step <;> simp [bind, Except.bind]

theorem map_eq_ok {f : α → β} {result : β} :
    f <$> step = .ok result ↔ ∃ value, step = .ok value ∧ f value = result := by
  cases step <;> simp [Functor.map, Except.map]

end Fault

end IdlLexis
