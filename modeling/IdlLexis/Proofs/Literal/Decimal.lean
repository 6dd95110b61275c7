import IdlLexis.Literal.Integer
import IdlLexis.Proofs.Lexeme.Opening
import IdlLexis.Proofs.Text.Utf8
/-!
Integers in decimal. A number is written in its decimal digits, which are bytes that are digits and
have the values that make up the number again, and an integer below zero has a minus sign in front
of them. A sign is told from what follows it, as digits begin with none.
-/

namespace IdlLexis

open Lexeme (OptionalSign Run Stops)

namespace Literal

theorem splitSign_of_stops {text : Bytes} (h : Stops Byte.isSign text) :
    splitSign text = (false, text) := by
  cases text with
  | nil => rfl
  | cons b text =>
      obtain ⟨hplus, hminus⟩ := Bool.or_eq_false_iff.mp (Lexeme.stops_cons.mp h)
      rw [splitSign, if_neg (ne_of_beq_false hminus), if_neg (ne_of_beq_false hplus)]

theorem splitSign_append {sign more : Bytes} (hsign : OptionalSign sign)
    (hmore : Stops Byte.isSign more) :
    ∃ negative, splitSign (sign ++ more) = (negative, more) := by
  rcases hsign with rfl | ⟨b, hb, rfl⟩
  · exact ⟨false, splitSign_of_stops hmore⟩
  · rcases Bool.or_eq_true_iff.mp hb with hplus | hminus
    · rw [eq_of_beq hplus]
      exact ⟨false, rfl⟩
    · rw [eq_of_beq hminus]
      exact ⟨true, rfl⟩

theorem exists_sign (text : Bytes) :
    ∃ sign, OptionalSign sign ∧ text = sign ++ (splitSign text).2 := by
  cases text with
  | nil => exact ⟨[], .nil, rfl⟩
  | cons b text =>
      rw [splitSign]
      split
      · next hminus =>
          rw [hminus]
          exact ⟨[0x2d], .inr ⟨_, by decide, rfl⟩, rfl⟩
      · split
        · next hplus =>
            rw [hplus]
            exact ⟨[0x2b], .inr ⟨_, by decide, rfl⟩, rfl⟩
        · exact ⟨[], .nil, rfl⟩

namespace Integer

variable {m : Nat}

/-- The number that `m` becomes when digits with these values follow it. -/
def extend (radix m : Nat) (values : List Nat) : Nat :=
  values.foldl (fun m digit => m * radix + digit) m

/-! The decimal digits of a number. -/

def decimal (m : Nat) : Bytes := Utf8.encode (Nat.toDigits 10 m)

theorem digitValue?_ten : ∀ b, Byte.isDigit b = true →
    Byte.digitValue? 10 b = some (b.toNat - 0x30) := by
  decide +kernel

theorem toNat_of_isDigit {c : Char} (h : c.isDigit = true) : 0x30 ≤ c.toNat ∧ c.toNat ≤ 0x39 := by
  simp only [Char.isDigit, Bool.and_eq_true, decide_eq_true_eq] at h
  exact h

theorem encodeChar_digit {c : Char} (h : c.isDigit = true) :
    ∃ b, String.utf8EncodeChar c = [b] ∧ Byte.isDigit b = true ∧ b.toNat = c.toNat := by
  obtain ⟨hlow, hhigh⟩ := toNat_of_isDigit h
  have htoNat : (UInt8.ofNat c.toNat).toNat = c.toNat := UInt8.toNat_ofNat_of_lt' (by
    rw [UInt8.size]
    omega)
  refine ⟨_, Utf8.encodeChar_ascii (by omega), ?_, htoNat⟩
  simp only [Byte.isDigit, Bool.and_eq_true, decide_eq_true_eq, UInt8.le_iff_toNat_le, htoNat]
  exact ⟨hlow, hhigh⟩

theorem encode_digits {text : List Char} (h : ∀ c ∈ text, c.isDigit = true) :
    (∀ b ∈ Utf8.encode text, Byte.isDigit b = true) ∧
      (Utf8.encode text).map (Byte.digitValue? 10) =
        (text.map fun c => c.toNat - 0x30).map some := by
  induction text with
  | nil => exact ⟨by simp, rfl⟩
  | cons c text ih =>
      obtain ⟨hc, htext⟩ := List.forall_mem_cons.mp h
      obtain ⟨b, hchar, hb, htoNat⟩ := encodeChar_digit hc
      obtain ⟨hrun, hvalues⟩ := ih htext
      rw [Utf8.encode_cons, hchar, List.singleton_append]
      constructor
      · exact List.forall_mem_cons.mpr ⟨hb, hrun⟩
      · rw [List.map_cons, hvalues, digitValue?_ten b hb, htoNat]
        rfl

theorem extend_ten (text : List Char) :
    extend 10 m (text.map fun c => c.toNat - 0x30) = Nat.ofDigitChars 10 text m := by
  induction text generalizing m with
  | nil => rfl
  | cons c text ih =>
      rw [Nat.ofDigitChars_cons, ← ih, Nat.mul_comm]
      rfl

theorem isDigit_toDigits (m : Nat) : ∀ c ∈ Nat.toDigits 10 m, c.isDigit = true :=
  fun _ hc => Nat.isDigit_of_mem_toDigits (by decide) (by decide) hc

theorem run_decimal (m : Nat) : Run Byte.isDigit (decimal m) := by
  refine ⟨?_, (encode_digits (isDigit_toDigits m)).1⟩
  intro hnil
  exact Nat.toDigits_ne_nil (Utf8.encode_injective (hnil.trans Utf8.encode_nil.symm))

/-! An integer as it is written: its digits, after a minus sign if it is below zero. -/

theorem encode_toString (value : Int) :
    ∃ sign m, Utf8.encode (toString value).toList = sign ++ decimal m ∧
      ((sign = [] ∧ value = m) ∨ (sign = [0x2d] ∧ value = -m)) := by
  rw [Int.toString_eq_repr, Int.repr_eq_if]
  by_cases hvalue : 0 ≤ value
  · rw [if_pos hvalue, Nat.toList_repr]
    exact ⟨[], value.toNat, rfl, .inl ⟨rfl, (Int.toNat_of_nonneg hvalue).symm⟩⟩
  · rw [if_neg hvalue, String.toList_append, Utf8.encode_append, Nat.toList_repr]
    refine ⟨[0x2d], (-value).toNat, rfl, .inr ⟨rfl, ?_⟩⟩
    omega

theorem eq_append_of_isPrefixOf? {front text rest : Bytes}
    (h : List.isPrefixOf? front text = some rest) : text = front ++ rest := by
  induction front generalizing text with
  | nil =>
      cases h
      rfl
  | cons b front ih =>
      cases text with
      | nil => contradiction
      | cons c text =>
          change (if b == c then List.isPrefixOf? front text else none) = some rest at h
          split at h
          · next heq => rw [← eq_of_beq heq, ih h, List.cons_append]
          · contradiction

end Integer

end Literal

end IdlLexis
