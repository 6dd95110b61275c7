import IdlLexis.Proofs.Lexeme.Run
/-!
The byte that a lexeme begins with tells which categories may cover it. The classes of first
bytes do not overlap, so few categories are ever left to compare.
-/

namespace IdlLexis

namespace Byte

theorem forall_iff {p : Byte → Prop} : (∀ b, p b) ↔ ∀ n < 256, p (UInt8.ofNat n) := by
  constructor
  · intro h n _
    exact h (UInt8.ofNat n)
  · intro h b
    have hb := h b.toNat b.toNat_lt
    rwa [UInt8.ofNat_toNat] at hb

instance (priority := low) decidableForall {p : Byte → Prop} [DecidablePred p] :
    Decidable (∀ b, p b) :=
  decidable_of_iff _ forall_iff.symm

end Byte

namespace Lexeme

namespace Category

instance (priority := low) decidableForall {p : Category → Prop} [DecidablePred p] :
    Decidable (∀ c, p c) :=
  decidable_of_iff (∀ c ∈ all, p c)
    ⟨fun h c => h c (mem_all c), fun h c _ => h c⟩

/-- Whether a lexeme of the category may begin with the byte. -/
def mayBegin : Category → Byte → Bool
  | word, b => Byte.isWordStart b
  | integer, b | real, b => Byte.isSign b || Byte.isDigit b
  | hexInteger, b => b == Byte.zero
  | quoted quote, b => b == quote.byte
  | symbol s, b => b == s.byte
  | blank, b => Byte.isBlank b
  | newline, b => b == Byte.lineFeed
  | lineComment, b => b == Byte.hash || b == Byte.slash
  | blockComment, b | docComment, b => b == Byte.slash
  | strayByte, _ | openQuote, _ | openComment, _ | endOfText, _ => false

theorem mayBegin_word : ∀ b, Byte.isWordStart b = true → ∀ c, mayBegin c b = true → c = word := by
  decide +kernel

theorem mayBegin_digit : ∀ b, Byte.isDigit b = true → ∀ c, mayBegin c b = true →
    c = integer ∨ c = hexInteger ∨ c = real := by
  decide +kernel

theorem mayBegin_sign : ∀ b, Byte.isSign b = true → ∀ c, mayBegin c b = true →
    c = integer ∨ c = real := by
  decide +kernel

theorem mayBegin_number (b : Byte) (hb : (Byte.isSign b || Byte.isDigit b) = true) (c : Category)
    (hc : mayBegin c b = true) : c = integer ∨ c = hexInteger ∨ c = real := by
  rcases Bool.or_eq_true_iff.mp hb with hsign | hdigit
  · rcases mayBegin_sign b hsign c hc with rfl | rfl
    · exact .inl rfl
    · exact .inr (.inr rfl)
  · exact mayBegin_digit b hdigit c hc

theorem mayBegin_blank : ∀ b, Byte.isBlank b = true → ∀ c, mayBegin c b = true → c = blank := by
  decide +kernel

theorem mayBegin_lineFeed : ∀ c, mayBegin c Byte.lineFeed = true → c = newline := by
  decide

theorem mayBegin_hash : ∀ c, mayBegin c Byte.hash = true → c = lineComment := by
  decide

theorem mayBegin_slash : ∀ c, mayBegin c Byte.slash = true →
    c = lineComment ∨ c = blockComment ∨ c = docComment := by
  decide

theorem mayBegin_quote (quote : Quote) : ∀ c, mayBegin c quote.byte = true → c = quoted quote := by
  cases quote <;> decide

theorem mayBegin_symbol (s : Symbol) : ∀ c, mayBegin c s.byte = true → c = symbol s := by
  cases s <;> decide

/-- A byte that selects no rule begins no lexeme but a mistake. -/
theorem mayBegin_eq_false {b : Byte} (hblank : Byte.isBlank b = false) (hline : b ≠ Byte.lineFeed)
    (hword : Byte.isWordStart b = false) (hdigit : Byte.isDigit b = false)
    (hsign : Byte.isSign b = false) (hhash : b ≠ Byte.hash) (hslash : b ≠ Byte.slash)
    (hquote : Quote.ofByte? b = none) (hsymbol : Symbol.ofByte? b = none) (c : Category) :
    mayBegin c b = false := by
  have hzero : b ≠ Byte.zero := by
    rintro rfl
    exact absurd hdigit (by decide)
  cases c with
  | quoted quote =>
      apply beq_false_of_ne
      rintro rfl
      rw [Quote.ofByte?_byte] at hquote
      contradiction
  | symbol s =>
      apply beq_false_of_ne
      rintro rfl
      rw [Symbol.ofByte?_byte] at hsymbol
      contradiction
  | _ => simp [mayBegin, *]

/-- Two categories that may begin with the same byte are both numbers, or both comments. -/
theorem mayBegin_unique {b : Byte} {c other : Category} (hb : mayBegin c b = true)
    (hother : mayBegin other b = true) :
    c = other ∨
      ((c = integer ∨ c = hexInteger ∨ c = real) ∧
        (other = integer ∨ other = hexInteger ∨ other = real)) ∨
      b = Byte.slash := by
  cases c with
  | word => exact .inl (mayBegin_word b hb other hother).symm
  | integer => exact .inr (.inl ⟨.inl rfl, mayBegin_number b hb other hother⟩)
  | hexInteger =>
      obtain rfl : b = Byte.zero := eq_of_beq hb
      exact .inr (.inl ⟨.inr (.inl rfl), mayBegin_number _ (by decide) other hother⟩)
  | real => exact .inr (.inl ⟨.inr (.inr rfl), mayBegin_number b hb other hother⟩)
  | quoted quote =>
      obtain rfl : b = quote.byte := eq_of_beq hb
      exact .inl (mayBegin_quote quote other hother).symm
  | symbol s =>
      obtain rfl : b = s.byte := eq_of_beq hb
      exact .inl (mayBegin_symbol s other hother).symm
  | blank => exact .inl (mayBegin_blank b hb other hother).symm
  | newline =>
      obtain rfl : b = Byte.lineFeed := eq_of_beq hb
      exact .inl (mayBegin_lineFeed other hother).symm
  | lineComment =>
      rcases Bool.or_eq_true_iff.mp hb with hhash | hslash
      · obtain rfl : b = Byte.hash := eq_of_beq hhash
        exact .inl (mayBegin_hash other hother).symm
      · exact .inr (.inr (eq_of_beq hslash))
  | blockComment => exact .inr (.inr (eq_of_beq hb))
  | docComment => exact .inr (.inr (eq_of_beq hb))
  | _ => contradiction

end Category

theorem isDigit_of_isSign : ∀ b, Byte.isSign b = true → Byte.isDigit b = false := by
  decide +kernel

theorem Run.stops_sign {digits : Bytes} (h : Run Byte.isDigit digits) :
    Stops Byte.isSign digits := by
  obtain ⟨b, rest, rfl, hb⟩ := h.exists_cons
  rw [stops_cons, ← Bool.not_eq_true]
  intro hsign
  rw [isDigit_of_isSign b hsign] at hb
  contradiction

/-- Digits after a sign or none begin with a sign or with a digit. -/
theorem OptionalSign.head_digits {sign digits rest : Bytes} {b : Byte} (hsign : OptionalSign sign)
    (hdigits : Run Byte.isDigit digits) (hb : (sign ++ digits ++ rest).head? = some b) :
    Byte.isSign b = true ∨ Byte.isDigit b = true := by
  rcases hsign with rfl | ⟨c, hc, rfl⟩
  · obtain ⟨d, tail, rfl, hd⟩ := hdigits.exists_cons
    cases hb
    exact .inr hd
  · cases hb
    exact .inl hc

theorem ClosedComment.head {text : Bytes} {b : Byte} (h : ClosedComment text)
    (hb : text.head? = some b) : b = Byte.slash := by
  obtain ⟨body, _, rfl⟩ := h
  cases hb
  rfl

theorem Covers.mayBegin {category : Category} {text : Bytes} {b : Byte}
    (h : Covers category text) (hb : text.head? = some b) : category.mayBegin b = true := by
  cases h with
  | word hfirst _ _ =>
      cases hb
      exact hfirst
  | integer hsign hdigits =>
      rw [← List.append_nil (_ ++ _)] at hb
      have hhead := hsign.head_digits hdigits hb
      simpa [Category.mayBegin] using hhead
  | hexInteger _ =>
      cases hb
      rfl
  | real hsign hwhole _ _ =>
      rw [List.append_assoc] at hb
      have hhead := hsign.head_digits hwhole hb
      simpa [Category.mayBegin] using hhead
  | quoted _ =>
      cases hb
      exact beq_self_eq_true _
  | symbol s =>
      cases hb
      exact beq_self_eq_true _
  | blank htext =>
      obtain ⟨c, rest, rfl, hc⟩ := htext.exists_cons
      cases hb
      exact hc
  | newline =>
      cases hb
      rfl
  | lineComment hmark _ =>
      rcases hmark with rfl | rfl <;> cases hb <;> rfl
  | blockComment hclosed _ =>
      rw [hclosed.head hb]
      rfl
  | docComment hclosed _ =>
      rw [hclosed.head hb]
      rfl

/-- What a longer front of the same text may be covered by. -/
theorem Covers.mayBegin_of_append {category : Category} {text more rest : Bytes} {b : Byte}
    (h : Covers category text) (heq : text ++ more = b :: rest) : category.mayBegin b = true := by
  apply h.mayBegin
  cases text with
  | nil => exact absurd rfl h.ne_nil
  | cons c text =>
      rw [List.cons_append] at heq
      rw [(List.cons.inj heq).1]
      rfl

end Lexeme

end IdlLexis
