import IdlLexis.Proofs.Lexeme.Unique
import IdlLexis.Proofs.Literal.Leftmost
import IdlLexis.Proofs.Literal.Range
import IdlLexis.Proofs.Literal.RealForm
/-!
What the grammar covers, the decoders can read. They walk a literal in steps of their own, yet its
form never makes them fail: a covered number fails by being too large, and a covered quoted
literal by an escape that stands for nothing or by bytes that are no text.
-/

namespace IdlLexis

open Lexeme (Category Covers First QuotedItem Run)

namespace Literal

variable {sign digits more text rest : Bytes} {failure : Failure} {quote : Quote}

/-! Numbers. -/

namespace Integer

theorem isSome_digitValue?_ten (b : Byte) (hb : Byte.isDigit b = true) :
    (Byte.digitValue? 10 b).isSome = true := by
  rw [digitValue?_ten b hb]
  rfl

theorem isSome_digitValue?_sixteen : ∀ b, Byte.isHexDigit b = true →
    (Byte.digitValue? 16 b).isSome = true := by
  decide +kernel

theorem writes_of_integer (h : Covers .integer text) : ∃ value, Writes text value := by
  cases h with
  | integer hsign hdigits =>
      obtain ⟨number, hnumber⟩ := exists_digits (show 10 ≤ 16 by decide)
        fun b hb => isSome_digitValue?_ten b (hdigits.2 b hb)
      rcases hsign with rfl | ⟨b, hb, rfl⟩
      · exact ⟨_, .intro .unsigned hnumber hdigits.ne_nil⟩
      · rcases Bool.or_eq_true_iff.mp hb with hplus | hminus
        · rw [eq_of_beq hplus]
          exact ⟨_, .intro .plus hnumber hdigits.ne_nil⟩
        · rw [eq_of_beq hminus]
          exact ⟨_, .intro .minus hnumber hdigits.ne_nil⟩

theorem writes_of_hexInteger (h : Covers .hexInteger text) : ∃ value, Writes text value := by
  cases h with
  | hexInteger hdigits =>
      obtain ⟨number, hnumber⟩ := exists_digits (show 16 ≤ 16 by decide)
        fun b hb => isSome_digitValue?_sixteen b (hdigits.2 b hb)
      exact ⟨_, .intro .hexadecimal hnumber hdigits.ne_nil⟩

theorem decode_failure {value : Int} (hwrites : Writes text value)
    (h : decode text = .error failure) : failure = .integerOutOfRange (Utf8.lossy text) := by
  rw [decode_of_writes hwrites] at h
  split at h
  · contradiction
  · exact (Except.error.inj h).symm

end Integer

namespace Real

theorem form_of_real (h : Covers .real text) : Form text := by
  cases h with
  | real hsign hwhole hfraction hexponent =>
      have hform := Form.intro hsign hwhole (.present hfraction) hexponent
      simpa using hform

theorem decode_of_real (hcovers : Covers .real text) (h : decode text = .error failure) :
    failure = .realOutOfRange (Utf8.lossy text) := by
  obtain ⟨d, _, hsettles⟩ := decode_settles (form_of_real hcovers)
  rcases hsettles.ok_or_outOfRange with ⟨_, hok⟩ | herror
  · cases h.symm.trans hok
  · exact Except.error.inj (h.symm.trans herror)

end Real

/-! Quoted literals. The grammar passes one byte after a backslash and the decoder as many as the
escape has; both stand before an item again, since what the decoder passes more are items of one
byte each. -/

namespace Quoted

/-- The text is items of a literal from here on. -/
def Itemized (quote : Quote) (text : Bytes) : Prop :=
  ∃ items : List Bytes, (∀ item ∈ items, QuotedItem quote item) ∧ text = items.flatten

namespace Itemized

variable {b : Byte}

theorem tail (h : Itemized quote (b :: rest)) (hb : b ≠ Byte.backslash) :
    Itemized quote rest := by
  obtain ⟨items, hitems, heq⟩ := h
  cases items with
  | nil => contradiction
  | cons item items =>
      obtain ⟨hitem, hrest⟩ := List.forall_mem_cons.mp hitems
      rw [List.flatten_cons] at heq
      cases hitem with
      | plain _ _ _ => exact ⟨items, hrest, (List.cons.inj heq).2⟩
      | escape _ => exact absurd (List.cons.inj heq).1 hb

theorem escaped (h : Itemized quote (Byte.backslash :: rest)) :
    ∃ letter after, rest = letter :: after ∧ Itemized quote after := by
  obtain ⟨items, hitems, heq⟩ := h
  cases items with
  | nil => contradiction
  | cons item items =>
      obtain ⟨hitem, hrest⟩ := List.forall_mem_cons.mp hitems
      rw [List.flatten_cons] at heq
      cases hitem with
      | plain _ hbackslash _ => exact absurd (List.cons.inj heq).1.symm hbackslash
      | @escape letter _ => exact ⟨letter, items.flatten, (List.cons.inj heq).2, items, hrest, rfl⟩

theorem skip (hdigits : Byte.backslash ∉ digits) (h : Itemized quote (digits ++ text)) :
    Itemized quote text := by
  induction digits with
  | nil => exact h
  | cons b digits ih =>
      rw [List.mem_cons, not_or] at hdigits
      exact ih hdigits.2 (h.tail (Ne.symm hdigits.1))

theorem of_item {q : Byte} {written meant : Bytes} (hitem : Item q rest written meant)
    (h : Itemized quote (written ++ rest)) : Itemized quote rest := by
  cases hitem with
  | plain hbackslash _ => exact h.tail hbackslash
  | escape hescaped =>
      obtain ⟨letter, digits, rfl⟩ := hescaped.exists_cons
      obtain ⟨letter', after, heq, hafter⟩ := h.escaped
      obtain ⟨rfl, rfl⟩ := List.cons.inj heq
      exact hafter.skip hescaped.backslash_not_mem

theorem of_parses {q : Byte} {row : List (Bytes × Bytes)} (hparses : Parses q text row rest)
    (h : Itemized quote text) : Itemized quote rest := by
  induction hparses with
  | nil => exact h
  | cons hitem _ ih => exact ih (h.of_item hitem)

theorem resolve_failure {q : Byte} (h : Itemized quote text) (hline : Byte.lineFeed ∉ text)
    (hresolve : resolve (escapesOf q) text = .error failure) :
    ∃ shown, failure = .unknownEscape shown ∨ failure = .notACharacter shown := by
  obtain ⟨row, rest, hparses, hhalts⟩ := exists_parses q hline
  have hrest := h.of_parses hparses
  rw [hresolve] at hhalts
  cases hhalts with
  | lone =>
      obtain ⟨letter, after, hnil, _⟩ := hrest.escaped
      contradiction
  | refused hrefused =>
      cases refusal_of_escapesOf hrefused with
      | notACharacter _ _ => exact ⟨_, .inr rfl⟩
      | unknown => exact ⟨_, .inl rfl⟩

end Itemized

theorem readBody_failure {q : Byte} (hbody : Itemized quote text)
    (h : readBody q text = .error failure) :
    (∃ shown, failure = .unknownEscape shown ∨ failure = .notACharacter shown) ∨
      failure = .illFormedText := by
  rcases failure_of_readBody h with ⟨hmem, _⟩ | rfl | ⟨hline, hresolve⟩
  · obtain ⟨items, hitems, rfl⟩ := hbody
    exact absurd (Lexeme.items_no_lineFeed hitems _ hmem) (by decide)
  · exact .inr rfl
  · exact .inl (hbody.resolve_failure hline hresolve)

theorem decode_of_quoted (hcovers : Covers (.quoted quote) text)
    (h : decode text = .error failure) :
    (∃ shown, failure = .unknownEscape shown ∨ failure = .notACharacter shown) ∨
      failure = .illFormedText := by
  cases hcovers with
  | @quoted _ items hitems =>
      rw [List.cons_append, decode,
        if_pos ⟨by rw [Quote.ofByte?_byte]; rfl, List.getLast?_concat⟩,
        List.dropLast_concat] at h
      exact readBody_failure ⟨items, hitems, rfl⟩ h

end Quoted

/-- What may be wrong with a literal of the category: its value, and never its form. -/
structure Decodes (category : Category) (text : Bytes) : Prop where
  integer : category = .integer ∨ category = .hexInteger →
    ∀ failure, Integer.decode text = .error failure →
      failure = .integerOutOfRange (Utf8.lossy text)
  real : category = .real →
    ∀ failure, Real.decode text = .error failure → failure = .realOutOfRange (Utf8.lossy text)
  quoted : ∀ quote, category = .quoted quote →
    ∀ failure, Quoted.decode text = .error failure →
      (∃ shown, failure = .unknownEscape shown ∨ failure = .notACharacter shown) ∨
        failure = .illFormedText

end Literal

namespace Lexeme

variable {category : Category} {front text : Bytes}

theorem First.covers (h : First category front text) (hcategory : category.isError = false) :
    Covers category front := by
  rcases h with hlongest | ⟨_, hmistake⟩
  · exact hlongest.covers
  · cases hmistake <;> contradiction

theorem First.decodes (h : First category front text) : Literal.Decodes category front := by
  constructor
  · rintro (rfl | rfl) failure hdecode
    · obtain ⟨value, hwrites⟩ := Literal.Integer.writes_of_integer (h.covers rfl)
      exact Literal.Integer.decode_failure hwrites hdecode
    · obtain ⟨value, hwrites⟩ := Literal.Integer.writes_of_hexInteger (h.covers rfl)
      exact Literal.Integer.decode_failure hwrites hdecode
  · rintro rfl failure hdecode
    exact Literal.Real.decode_of_real (h.covers rfl) hdecode
  · rintro quote rfl failure hdecode
    exact Literal.Quoted.decode_of_quoted (h.covers rfl) hdecode

end Lexeme

end IdlLexis
