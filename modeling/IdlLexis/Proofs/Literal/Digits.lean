import Mathlib.Data.List.Forall2
import Mathlib.Data.Nat.Digits.Defs
import IdlLexis.Literal.Quoted
import IdlLexis.Proofs.Literal.Decimal
/-!
Digits in a radix. A byte is a digit if it is the character that the digit is printed as, and
letters may be of either case. Digits in a row write a number, the first of them counting most;
that is the number which reading them digit by digit ends at.
-/

namespace IdlLexis

namespace Literal

variable {radix width number other digit : Nat} {text digits : Bytes} {b : Byte}
  {values : List Nat}

def IsDigit (radix : Nat) (b : Byte) (digit : Nat) : Prop :=
  digit < radix ∧
    (b.toNat = (Nat.digitChar digit).toNat ∨ b.toNat = (Nat.digitChar digit).toUpper.toNat)

instance : Decidable (IsDigit radix b digit) := inferInstanceAs (Decidable (_ ∧ _))

/-- The bytes are digits, and they write the number. -/
def Digits (radix : Nat) (text : Bytes) (number : Nat) : Prop :=
  ∃ values, List.Forall₂ (IsDigit radix) text values ∧
    number = Nat.ofDigits radix values.reverse

/-- The text does not begin with a digit. -/
def EndsDigits (radix : Nat) (text : Bytes) : Prop :=
  ∀ b digit, text.head? = some b → ¬ IsDigit radix b digit

theorem alphanumericValue?_eq_some_iff : ∀ b, ∀ digit < 16,
    Byte.alphanumericValue? b = some digit ↔
      (b.toNat = (Nat.digitChar digit).toNat ∨
        b.toNat = (Nat.digitChar digit).toUpper.toNat) := by
  decide +kernel

theorem digitValue?_eq_some_iff (hradix : radix ≤ 16) :
    Byte.digitValue? radix b = some digit ↔ IsDigit radix b digit := by
  rw [Byte.digitValue?, Option.filter_eq_some_iff, decide_eq_true_eq, IsDigit, and_comm]
  apply and_congr_right
  intro hdigit
  exact alphanumericValue?_eq_some_iff b digit (Nat.lt_of_lt_of_le hdigit hradix)

theorem digitValue?_eq_none_iff (hradix : radix ≤ 16) :
    Byte.digitValue? radix b = none ↔ ∀ digit, ¬ IsDigit radix b digit := by
  simp only [Option.eq_none_iff_forall_ne_some, ne_eq, digitValue?_eq_some_iff hradix]

theorem forall₂_isDigit_iff (hradix : radix ≤ 16) :
    List.Forall₂ (IsDigit radix) text values ↔
      text.map (Byte.digitValue? radix) = values.map some := by
  rw [← List.forall₂_eq_eq_eq, List.forall₂_map_left_iff, List.forall₂_map_right_iff]
  simp only [digitValue?_eq_some_iff hradix]

theorem Integer.extend_zero (radix : Nat) (values : List Nat) :
    Integer.extend radix 0 values = Nat.ofDigits radix values.reverse := by
  rw [Nat.ofDigits_eq_foldr, List.foldr_reverse, Integer.extend]
  simp only [Nat.mul_comm, Nat.add_comm, Nat.cast_id]

/-! Digits one after the other. -/

theorem lt_of_forall₂_isDigit (h : List.Forall₂ (IsDigit radix) text values) :
    ∀ digit ∈ values, digit < radix := by
  induction h with
  | nil => simp
  | cons hdigit _ ih => exact List.forall_mem_cons.mpr ⟨hdigit.1, ih⟩

theorem Digits.lt_pow (hradix : 1 < radix) (h : Digits radix text number) :
    number < radix ^ text.length := by
  obtain ⟨values, hvalues, rfl⟩ := h
  rw [hvalues.length_eq, ← List.length_reverse]
  apply Nat.ofDigits_lt_base_pow_length hradix
  intro digit hdigit
  exact lt_of_forall₂_isDigit hvalues digit (List.mem_reverse.mp hdigit)

theorem Digits.zero_cons (hradix : 0 < radix) (h : Digits radix text number) :
    Digits radix (Byte.zero :: text) number := by
  obtain ⟨values, hvalues, rfl⟩ := h
  refine ⟨0 :: values, .cons ⟨hradix, .inl rfl⟩ hvalues, ?_⟩
  rw [Nat.ofDigits_reverse_zero_cons]

theorem Digits.zeros_append {zeros : Bytes} (hradix : 0 < radix)
    (hzeros : ∀ b ∈ zeros, b = Byte.zero) (h : Digits radix text number) :
    Digits radix (zeros ++ text) number := by
  induction zeros with
  | nil => exact h
  | cons b zeros ih =>
      obtain ⟨rfl, hmore⟩ := List.forall_mem_cons.mp hzeros
      exact (ih hmore).zero_cons hradix

theorem Digits.nil : Digits radix [] 0 := ⟨[], .nil, rfl⟩

theorem EndsDigits.nil : EndsDigits radix [] := by
  intro b digit hhead
  contradiction

theorem Digits.isSome (hradix : radix ≤ 16) (h : Digits radix text number) :
    ∀ b ∈ text, (Byte.digitValue? radix b).isSome = true := by
  obtain ⟨values, hvalues, _⟩ := h
  intro b hb
  obtain ⟨digit, _, hdigit⟩ := List.mem_map.mp
    ((forall₂_isDigit_iff hradix).mp hvalues ▸ List.mem_map_of_mem hb)
  exact Option.isSome_iff_exists.mpr ⟨digit, hdigit.symm⟩

theorem Digits.not_mem (hradix : radix ≤ 16) (h : Digits radix text number)
    (hb : Byte.digitValue? radix b = none) : b ∉ text := by
  intro hmem
  have hsome := h.isSome hradix b hmem
  rw [hb] at hsome
  contradiction

theorem exists_digits (hradix : radix ≤ 16)
    (h : ∀ b ∈ text, (Byte.digitValue? radix b).isSome = true) :
    ∃ number, Digits radix text number := by
  have hvalues : ∃ values, List.Forall₂ (IsDigit radix) text values := by
    induction text with
    | nil => exact ⟨[], .nil⟩
    | cons b text ih =>
        obtain ⟨hb, hrest⟩ := List.forall_mem_cons.mp h
        obtain ⟨digit, hdigit⟩ := Option.isSome_iff_exists.mp hb
        obtain ⟨values, hvalues⟩ := ih hrest
        exact ⟨digit :: values, .cons ((digitValue?_eq_some_iff hradix).mp hdigit) hvalues⟩
  obtain ⟨values, hvalues⟩ := hvalues
  exact ⟨_, values, hvalues, rfl⟩

theorem endsDigits_iff_stops (hradix : radix ≤ 16) :
    EndsDigits radix text ↔
      Lexeme.Stops (fun b => (Byte.digitValue? radix b).isSome) text := by
  simp only [EndsDigits, Lexeme.Stops, Option.isSome_eq_false_iff, Option.isNone_iff_eq_none,
    digitValue?_eq_none_iff hradix]
  exact forall_congr' fun b => forall_comm

theorem Digits.tail (h : Digits radix (b :: text) number) : ∃ other, Digits radix text other := by
  obtain ⟨values, hvalues, _⟩ := h
  cases hvalues with
  | cons _ hmore => exact ⟨_, _, hmore, rfl⟩

/-- A text begins with digits, none at the least, that write a number, and then ends them. -/
theorem exists_digits_append (hradix : radix ≤ 16) (text : Bytes) :
    ∃ digits tail number, text = digits ++ tail ∧ Digits radix digits number ∧
      EndsDigits radix tail := by
  obtain ⟨digits, tail, rfl, hdigits, hstops⟩ :=
    Lexeme.exists_run (fun b => (Byte.digitValue? radix b).isSome) text
  obtain ⟨number, hnumber⟩ := exists_digits hradix hdigits
  exact ⟨digits, tail, number, rfl, hnumber, (endsDigits_iff_stops hradix).mpr hstops⟩

/-! The digits of an escape, of which there is a fixed count. -/

theorem mapM_eq_some_iff {α β : Type} {f : α → Option β} {items : List α} {found : List β} :
    items.mapM f = some found ↔ items.map f = found.map some := by
  induction items generalizing found with
  | nil => cases found <;> simp
  | cons item items ih =>
      rw [List.mapM_cons, Option.bind_eq_bind, Option.bind_eq_some_iff]
      simp only [Option.bind_eq_bind, Option.bind_eq_some_iff, Option.pure_def, Option.some.injEq,
        ih]
      constructor
      · rintro ⟨first, hfirst, more, hmore, rfl⟩
        rw [List.map_cons, hfirst, hmore, List.map_cons]
      · intro hmap
        cases found with
        | nil => contradiction
        | cons first more =>
            obtain ⟨hfirst, hmore⟩ := List.cons.inj hmap
            exact ⟨first, hfirst, more, hmore, rfl⟩

theorem number?_eq (radix width : Nat) (text : Bytes) :
    Escape.number? radix width text =
      if width ≤ text.length then
        ((text.take width).mapM (Byte.digitValue? radix)).map (Integer.extend radix 0)
      else none := by
  unfold Escape.number?
  split
  · next hwidth =>
      rw [guard, if_pos hwidth]
      cases (text.take width).mapM (Byte.digitValue? radix) <;> rfl
  · next hwidth =>
      rw [guard, if_neg hwidth]
      rfl

theorem number?_eq_some_iff (hradix : radix ≤ 16) :
    Escape.number? radix width text = some number ↔
      width ≤ text.length ∧ Digits radix (text.take width) number := by
  rw [number?_eq]
  split
  · next hwidth =>
      simp only [Option.map_eq_some_iff, mapM_eq_some_iff, ← forall₂_isDigit_iff hradix,
        Integer.extend_zero, hwidth, true_and, Digits, @eq_comm _ number]
  · next hwidth => simp [hwidth]

/-- The digits that are asked for stand in front. -/
theorem number?_append (hradix : radix ≤ 16) (hdigits : Digits radix digits number)
    (tail : Bytes) : Escape.number? radix digits.length (digits ++ tail) = some number := by
  rw [number?_eq_some_iff hradix, List.take_left, List.length_append]
  exact ⟨Nat.le_add_right .., hdigits⟩

theorem exists_of_number? (hradix : radix ≤ 16)
    (h : Escape.number? radix width text = some number) :
    ∃ digits tail, text = digits ++ tail ∧ digits.length = width ∧ Digits radix digits number := by
  obtain ⟨hlength, hdigits⟩ := (number?_eq_some_iff hradix).mp h
  exact ⟨text.take width, text.drop width, (List.take_append_drop ..).symm,
    List.length_take_of_le hlength, hdigits⟩

end Literal

end IdlLexis
