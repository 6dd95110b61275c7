import IdlLexis.Lexeme.Grammar
/-!
Runs of bytes of a class. A text splits in one way only into a run that goes as far as it can and
a tail that stops it, and no other run that the text begins with is longer.
-/

namespace IdlLexis

namespace Lexeme

/-- The text does not begin with a byte of the class. -/
def Stops (test : Byte → Bool) (text : Bytes) : Prop :=
  ∀ b, text.head? = some b → test b = false

variable {test : Byte → Bool} {run other tail more : Bytes} {b : Byte}

@[simp] theorem stops_nil : Stops test [] := by
  intro b h
  cases h

@[simp] theorem stops_cons : Stops test (b :: tail) ↔ test b = false := by
  simp [Stops]

theorem Stops.append (h : Stops test run) (hne : run ≠ []) (tail : Bytes) :
    Stops test (run ++ tail) := by
  obtain ⟨b, rest, rfl⟩ := List.exists_cons_of_ne_nil hne
  exact stops_cons.mpr (stops_cons.mp h)

/-- A read gives zero where a text has ended, so any other byte read is there. -/
theorem headD_eq_iff {text : Bytes} (hb : b ≠ 0) : text.headD 0 = b ↔ text.head? = some b := by
  cases text with
  | nil => simpa using hb.symm
  | cons c text => simp

theorem exists_run (test : Byte → Bool) (text : Bytes) :
    ∃ run tail, text = run ++ tail ∧ (∀ b ∈ run, test b = true) ∧ Stops test tail := by
  induction text with
  | nil => exact ⟨[], [], rfl, by simp, stops_nil⟩
  | cons b text ih =>
      cases htest : test b with
      | false => exact ⟨[], b :: text, rfl, by simp, stops_cons.mpr htest⟩
      | true =>
          obtain ⟨run, tail, rfl, hrun, hstops⟩ := ih
          exact ⟨b :: run, tail, rfl, List.forall_mem_cons.mpr ⟨htest, hrun⟩, hstops⟩

theorem run_length_le (heq : other ++ more = run ++ tail) (hother : ∀ b ∈ other, test b = true)
    (hstops : Stops test tail) : other.length ≤ run.length := by
  induction run generalizing other with
  | nil =>
      cases other with
      | nil => exact Nat.le_refl _
      | cons b other =>
          rw [List.nil_append, List.cons_append] at heq
          rw [← heq, stops_cons, hother b List.mem_cons_self] at hstops
          contradiction
  | cons b run ih =>
      cases other with
      | nil => exact Nat.zero_le _
      | cons c other =>
          rw [List.cons_append, List.cons_append] at heq
          have hlength := ih (List.cons.inj heq).2 fun d hd => hother d (List.mem_cons_of_mem c hd)
          rw [List.length_cons, List.length_cons]
          omega

theorem takeWhile_run (hrun : ∀ b ∈ run, test b = true) (hstops : Stops test tail) :
    (run ++ tail).takeWhile test = run := by
  rw [List.takeWhile_append_of_pos hrun]
  cases tail with
  | nil => rw [List.takeWhile_nil, List.append_nil]
  | cons b tail =>
      rw [List.takeWhile_cons_of_neg (by simp [stops_cons.mp hstops]), List.append_nil]

theorem dropWhile_run (hrun : ∀ b ∈ run, test b = true) (hstops : Stops test tail) :
    (run ++ tail).dropWhile test = tail := by
  rw [List.dropWhile_append_of_pos hrun]
  cases tail with
  | nil => rfl
  | cons b tail => rw [List.dropWhile_cons_of_neg (by simp [stops_cons.mp hstops])]

theorem run_unique (heq : other ++ more = run ++ tail)
    (hother : ∀ b ∈ other, test b = true) (hrun : ∀ b ∈ run, test b = true)
    (hmore : Stops test more) (htail : Stops test tail) : other = run ∧ more = tail := by
  apply List.append_inj heq
  apply Nat.le_antisymm
  · exact run_length_le heq hother htail
  · exact run_length_le heq.symm hrun hmore

theorem Run.cons (hb : test b = true) (hrun : ∀ c ∈ run, test c = true) :
    Run test (b :: run) :=
  ⟨List.cons_ne_nil _ _, List.forall_mem_cons.mpr ⟨hb, hrun⟩⟩

theorem Run.exists_cons (h : Run test run) : ∃ b rest, run = b :: rest ∧ test b = true := by
  obtain ⟨hne, hrun⟩ := h
  cases run with
  | nil => exact absurd rfl hne
  | cons b rest => exact ⟨b, rest, rfl, hrun b List.mem_cons_self⟩

/-! A category covers a longest front if no category covers a longer one that goes on the same
way. -/

theorem isLongest_append {category : Category} {front tail : Bytes}
    (hcovers : Covers category front)
    (hlongest : ∀ other longer more, Covers other longer → longer ++ more = front ++ tail →
      longer.length ≤ front.length) :
    IsLongest category front (front ++ tail) := by
  refine ⟨hcovers, List.prefix_append _ _, ?_⟩
  rintro other longer hother ⟨more, hmore⟩
  exact hlongest other longer more hother hmore

end Lexeme

end IdlLexis
