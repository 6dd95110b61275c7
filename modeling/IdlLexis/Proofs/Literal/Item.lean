import IdlLexis.Proofs.Literal.Digits
import IdlLexis.Proofs.Literal.Written
/-!
The items of a quoted literal. A body is a row of them: bytes that stand for themselves, and
backslashes with what is escaped. A body has one such row at most, and its value is the text whose
bytes the items of that row stand for.
-/

namespace IdlLexis

namespace Literal

namespace Quoted

/-! The language of the items. Either style of quote has letters that are escapes alone; the other
escapes are those of a double quote. -/

def singleStyle : List (Char × Char) :=
  [('n', '\n'), ('t', '\t'), ('\\', '\\'), ('\'', '\''), ('"', '"')]

def doubleStyle : List (Char × Char) :=
  singleStyle ++
    [('r', '\r'), ('/', '/'), ('a', '\x07'), ('b', '\x08'), ('f', '\x0c'), ('v', '\x0b')]

def lettersOf (quote : Byte) : List (Char × Char) :=
  if quote = Quote.single.byte then singleStyle else doubleStyle

/-- The letters of characters by their number, with the count of digits. -/
def numberLetters : List (Char × Nat) := [('u', 4), ('U', 8)]

/-- What may follow a backslash before the rest of a body, and the bytes that it stands for. -/
inductive Escaped (quote : Byte) (rest : Bytes) : (written meant : Bytes) → Prop
  | letter {c d : Char} (h : (c, d) ∈ lettersOf quote) :
      Escaped quote rest (Utf8.encode [c]) (Utf8.encode [d])
  | hexByte {digits : Bytes} {number : Nat} (hquote : quote ≠ Quote.single.byte)
      (hdigits : Digits 16 digits number) (hlength : digits.length = 2) :
      Escaped quote rest (Utf8.encode ['x'] ++ digits) [UInt8.ofNat number]
  | character {mark c : Char} {width : Nat} {digits : Bytes} (hquote : quote ≠ Quote.single.byte)
      (hmark : (mark, width) ∈ numberLetters) (hdigits : Digits 16 digits c.toNat)
      (hlength : digits.length = width) :
      Escaped quote rest (Utf8.encode [mark] ++ digits) (Utf8.encode [c])
  | octal {digits : Bytes} {number : Nat} (hquote : quote ≠ Quote.single.byte)
      (hdigits : Digits 8 digits number) (hlength : digits.length = 3) (hnumber : number ≤ 255) :
      Escaped quote rest digits [UInt8.ofNat number]
  | zero (hquote : quote ≠ Quote.single.byte)
      (hrest : ∀ digits number, digits <+: rest → digits.length = 2 → ¬ Digits 8 digits number) :
      Escaped quote rest (Utf8.encode ['0']) [0]

inductive Item (quote : Byte) (rest : Bytes) : (written meant : Bytes) → Prop
  | plain {b : Byte} (hbackslash : b ≠ Byte.backslash) (hline : b ≠ Byte.lineFeed) :
      Item quote rest [b] [b]
  | escape {written meant : Bytes} (h : Escaped quote rest written meant) :
      Item quote rest (Byte.backslash :: written) meant

/-- The text begins with a row of items, each with the bytes it stands for, before the rest. -/
inductive Parses (quote : Byte) :
    (text : Bytes) → (row : List (Bytes × Bytes)) → (rest : Bytes) → Prop
  | nil {rest : Bytes} : Parses quote rest [] rest
  | cons {text rest written meant : Bytes} {row : List (Bytes × Bytes)}
      (hitem : Item quote text written meant) (hrow : Parses quote text row rest) :
      Parses quote (written ++ text) ((written, meant) :: row) rest

variable {quote letter b : Byte} {rest after text written meant digits bytes : Bytes}
  {number width : Nat} {failure : Failure}

/-! Escapes of one letter. -/

def asciiByte (c : Char) : Byte := UInt8.ofNat c.toNat

theorem mem_doubleStyle {p : Char × Char} (h : p ∈ lettersOf quote) : p ∈ doubleStyle := by
  unfold lettersOf at h
  split at h
  · exact List.mem_append_left _ h
  · exact h

theorem encode_doubleStyle : ∀ p ∈ doubleStyle,
    Utf8.encode [p.1] = [asciiByte p.1] ∧ Utf8.encode [p.2] = [asciiByte p.2] := by
  decide

theorem lookup_singleLetters : ∀ p ∈ singleStyle,
    Escape.singleLetters.lookup (asciiByte p.1) = some (asciiByte p.2) := by
  decide

theorem lookup_doubleLetters : ∀ p ∈ doubleStyle,
    Escape.doubleLetters.lookup (asciiByte p.1) = some (asciiByte p.2) := by
  decide

theorem singleLetters_eq :
    Escape.singleLetters = singleStyle.map fun p => (asciiByte p.1, asciiByte p.2) := by
  decide

theorem doubleLetters_eq :
    Escape.doubleLetters = doubleStyle.map fun p => (asciiByte p.1, asciiByte p.2) := by
  decide

theorem escaped_letter {c d : Char} (h : (c, d) ∈ lettersOf quote) :
    Escaped quote rest [asciiByte c] [asciiByte d] := by
  obtain ⟨hc, hd⟩ := encode_doubleStyle _ (mem_doubleStyle h)
  rw [← hc, ← hd]
  exact .letter h

theorem escaped_of_lookup {table : List (Byte × Byte)}
    (htable : table = (lettersOf quote).map fun p => (asciiByte p.1, asciiByte p.2))
    (h : table.lookup letter = some b) : Escaped quote rest [letter] [b] := by
  obtain ⟨front, back, hsplit, _⟩ := List.lookup_eq_some_iff.mp h
  have hmem : (letter, b) ∈ table := by
    rw [hsplit]
    exact List.mem_append_right _ List.mem_cons_self
  rw [htable] at hmem
  obtain ⟨⟨c, d⟩, hcd, heq⟩ := List.mem_map.mp hmem
  cases heq
  exact escaped_letter hcd

theorem escapesOf_single (letter : Byte) (after : Bytes) :
    escapesOf Quote.single.byte letter after = Escape.inSingle letter after := by
  rw [escapesOf, if_pos rfl]

theorem escapesOf_double (hquote : quote ≠ Quote.single.byte) (letter : Byte) (after : Bytes) :
    escapesOf quote letter after = Escape.inDouble letter after := by
  rw [escapesOf, if_neg hquote]

theorem escapesOf_letter {c d : Char} (h : (c, d) ∈ lettersOf quote) (after : Bytes) :
    ∃ letter b, Utf8.encode [c] = [letter] ∧ Utf8.encode [d] = [b] ∧
      escapesOf quote letter after = .ok ⟨[b], 0⟩ := by
  obtain ⟨hc, hd⟩ := encode_doubleStyle _ (mem_doubleStyle h)
  refine ⟨_, _, hc, hd, ?_⟩
  unfold lettersOf at h
  split at h
  · next hquote =>
      rw [hquote, escapesOf_single, Escape.inSingle, lookup_singleLetters _ h]
      rfl
  · next hquote =>
      rw [escapesOf_double hquote, Escape.inDouble, lookup_doubleLetters _ h]
      rfl

/-! Escapes by a number. -/

theorem inDouble_hexByte (after : Bytes) :
    Escape.inDouble 0x78 after = Escape.hexByte 0x78 after := rfl

theorem inDouble_character {mark : Char} (hmark : (mark, width) ∈ numberLetters) (after : Bytes) :
    ∃ letter, Utf8.encode [mark] = [letter] ∧
      Escape.inDouble letter after = Escape.character letter after width := by
  simp only [numberLetters, List.mem_cons, List.not_mem_nil, or_false, Prod.mk.injEq] at hmark
  rcases hmark with ⟨rfl, rfl⟩ | ⟨rfl, rfl⟩
  · exact ⟨0x75, by decide, rfl⟩
  · exact ⟨0x55, by decide, rfl⟩

theorem other_of_octal : ∀ b : Byte, 0x30 ≤ b ∧ b ≤ 0x37 →
    Escape.doubleLetters.lookup b = none ∧ b ≠ 0x78 ∧ b ≠ 0x75 ∧ b ≠ 0x55 := by
  decide +kernel

theorem inDouble_octal (h : 0x30 ≤ letter ∧ letter ≤ 0x37) (after : Bytes) :
    Escape.inDouble letter after = Escape.octal letter after := by
  obtain ⟨hlookup, hx, hu, hU⟩ := other_of_octal letter h
  rw [Escape.inDouble, hlookup]
  dsimp only
  rw [if_neg hx, if_neg hu, if_neg hU, if_pos h]

theorem octal_of_isDigit : ∀ b, (Byte.digitValue? 8 b).isSome = true → 0x30 ≤ b ∧ b ≤ 0x37 := by
  decide +kernel

/-- Two octal digits after a zero make up less than a byte. -/
theorem digits_after_zero (hdigits : Digits 8 digits number) (hlength : digits.length = 2) :
    Digits 8 (Byte.zero :: digits) number ∧ number < 256 := by
  have hbound := hdigits.lt_pow (by decide)
  rw [hlength] at hbound
  exact ⟨hdigits.zero_cons (by decide), Nat.lt_trans hbound (by decide)⟩

theorem octal_digits (hdigits : Digits 8 (letter :: digits) number)
    (hlength : (letter :: digits).length = 3) (hnumber : number ≤ 255) (rest : Bytes) :
    Escape.octal letter (digits ++ rest) = .ok ⟨[UInt8.ofNat number], 2⟩ := by
  have hread := number?_append (by decide) hdigits rest
  rw [hlength, List.cons_append] at hread
  rw [Escape.octal, hread, Option.filter_some_pos (by simpa using Nat.lt_succ_of_le hnumber)]

theorem octal_zero
    (hrest : ∀ digits number, digits <+: rest → digits.length = 2 → ¬ Digits 8 digits number) :
    Escape.octal Byte.zero rest = .ok ⟨[0], 0⟩ := by
  have hnone : Escape.number? 8 3 (Byte.zero :: rest) = none := by
    rw [Option.eq_none_iff_forall_ne_some]
    intro number hnumber
    obtain ⟨digits, tail, hsplit, hlength, hdigits⟩ := exists_of_number? (by decide) hnumber
    cases digits with
    | nil => contradiction
    | cons b digits =>
        obtain ⟨_, hrest'⟩ := List.cons.inj hsplit
        obtain ⟨other, hother⟩ := hdigits.tail
        exact hrest digits other ⟨tail, hrest'.symm⟩ (Nat.succ.inj hlength) hother
  rw [Escape.octal, hnone]
  rfl

/-! What is escaped reads as the bytes that it stands for, before its rest. -/

theorem escapesOf_of_escaped (h : Escaped quote rest (letter :: digits) meant) :
    escapesOf quote letter (digits ++ rest) = .ok ⟨meant, digits.length⟩ := by
  generalize hwritten : letter :: digits = written at h
  cases h with
  | letter hmem =>
      obtain ⟨b, m, hb, hm, hescape⟩ := escapesOf_letter hmem (digits ++ rest)
      rw [hb] at hwritten
      obtain ⟨rfl, rfl⟩ := List.cons.inj hwritten
      rw [hescape, hm]
      rfl
  | @hexByte _ number hquote hdigits hlength =>
      obtain ⟨rfl, rfl⟩ : letter = 0x78 ∧ _ := List.cons.inj hwritten
      rw [escapesOf_double hquote, inDouble_hexByte, Escape.hexByte, ← hlength,
        number?_append (by decide) hdigits]
  | @character mark c width _ hquote hmark hdigits hlength =>
      obtain ⟨b, hb, hescape⟩ := inDouble_character hmark (digits ++ rest)
      rw [hb] at hwritten
      obtain ⟨rfl, rfl⟩ := List.cons.inj hwritten
      rw [escapesOf_double hquote, hescape, Escape.character, ← hlength,
        number?_append (by decide) hdigits]
      have hvalid : c.toNat.isValidChar := c.valid
      dsimp only
      rw [if_pos hvalid, Char.ofNat_toNat, Utf8.encode_cons, Utf8.encode_nil, List.append_nil]
  | @octal _ number hquote hdigits hlength hnumber =>
      subst hwritten
      have hletter := octal_of_isDigit letter (hdigits.isSome (by decide) _ List.mem_cons_self)
      rw [escapesOf_double hquote, inDouble_octal hletter, octal_digits hdigits hlength hnumber,
        Nat.succ.inj hlength]
  | zero hquote hrest =>
      obtain ⟨rfl, rfl⟩ : letter = Byte.zero ∧ digits = [] := List.cons.inj hwritten
      rw [escapesOf_double hquote, inDouble_octal (by decide), List.nil_append, octal_zero hrest]
      rfl

/-! What reads is something escaped. -/

/-- An escape that reads takes what is escaped off the text after the backslash. -/
def Takes (quote letter : Byte) (after : Bytes) (e : Escape) : Prop :=
  ∃ digits rest, after = digits ++ rest ∧ digits.length = e.width ∧
    Escaped quote rest (letter :: digits) e.bytes

theorem takes_of_byte {e : Escape} (h : Escape.byte b = .ok e)
    (hescaped : Escaped quote after [letter] [b]) : Takes quote letter after e := by
  cases h
  exact ⟨[], after, rfl, rfl, hescaped⟩

theorem takes_of_inSingle {e : Escape} (h : Escape.inSingle letter after = .ok e) :
    Takes Quote.single.byte letter after e := by
  unfold Escape.inSingle at h
  split at h
  · next b hlookup =>
      have htable := singleLetters_eq
      rw [← show lettersOf Quote.single.byte = singleStyle from if_pos rfl] at htable
      exact takes_of_byte h (escaped_of_lookup htable hlookup)
  · contradiction

theorem takes_of_hexByte {e : Escape} (hquote : quote ≠ Quote.single.byte)
    (h : Escape.hexByte 0x78 after = .ok e) : Takes quote 0x78 after e := by
  unfold Escape.hexByte at h
  split at h
  · next number hnumber =>
      cases h
      obtain ⟨digits, tail, rfl, hlength, hdigits⟩ := exists_of_number? (by decide) hnumber
      exact ⟨digits, tail, rfl, hlength, .hexByte hquote hdigits hlength⟩
  · contradiction

theorem takes_of_character {e : Escape} (mark : Char) (hquote : quote ≠ Quote.single.byte)
    (hmark : (mark, width) ∈ numberLetters) (hletter : Utf8.encode [mark] = [letter])
    (h : Escape.character letter after width = .ok e) : Takes quote letter after e := by
  unfold Escape.character at h
  split at h
  · contradiction
  · next number hnumber =>
      split at h
      · next hvalid =>
          cases h
          obtain ⟨digits, tail, rfl, hlength, hdigits⟩ := exists_of_number? (by decide) hnumber
          have hc : (Char.ofNat number).toNat = number := by
            rw [Char.ofNat, dif_pos hvalid]
            rfl
          rw [← hc] at hdigits
          have hescaped : Escaped quote tail _ _ := .character hquote hmark hdigits hlength
          rw [hletter, Utf8.encode_cons, Utf8.encode_nil, List.append_nil] at hescaped
          exact ⟨digits, tail, rfl, hlength, hescaped⟩
      · contradiction

theorem takes_of_octal {e : Escape} (hquote : quote ≠ Quote.single.byte)
    (h : Escape.octal letter after = .ok e) : Takes quote letter after e := by
  unfold Escape.octal at h
  split at h
  · next number hnumber =>
      cases h
      obtain ⟨hnumber, hlt⟩ := Option.filter_eq_some_iff.mp hnumber
      obtain ⟨digits, tail, hsplit, hlength, hdigits⟩ := exists_of_number? (by decide) hnumber
      cases digits with
      | nil => contradiction
      | cons b digits =>
          obtain ⟨rfl, rfl⟩ := List.cons.inj hsplit
          have hle : number ≤ 255 := Nat.le_of_lt_succ (of_decide_eq_true hlt)
          exact ⟨digits, tail, rfl, Nat.succ.inj hlength, .octal hquote hdigits hlength hle⟩
  · next hnone =>
      split at h
      · next hletter =>
          rw [hletter] at hnone ⊢
          apply takes_of_byte h
          refine .zero hquote ?_
          rintro digits number ⟨tail, rfl⟩ hlength hdigits
          obtain ⟨hdigits, hlt⟩ := digits_after_zero hdigits hlength
          have hread := number?_append (by decide) hdigits tail
          rw [List.length_cons, hlength, List.cons_append] at hread
          rw [hread, Option.filter_some_pos (by simpa using hlt)] at hnone
          contradiction
      · contradiction

theorem takes_of_inDouble {e : Escape} (hquote : quote ≠ Quote.single.byte)
    (h : Escape.inDouble letter after = .ok e) : Takes quote letter after e := by
  unfold Escape.inDouble at h
  split at h
  · next b hlookup =>
      have htable := doubleLetters_eq
      rw [← show lettersOf quote = doubleStyle from if_neg hquote] at htable
      exact takes_of_byte h (escaped_of_lookup htable hlookup)
  · split at h
    · next hx =>
        rw [hx] at h ⊢
        exact takes_of_hexByte hquote h
    · split at h
      · next hu =>
          rw [hu] at h ⊢
          exact takes_of_character 'u' hquote (by decide) (by decide) h
      · split at h
        · next hU =>
            rw [hU] at h ⊢
            exact takes_of_character 'U' hquote (by decide) (by decide) h
        · split at h
          · exact takes_of_octal hquote h
          · contradiction

theorem takes_of_escapesOf {e : Escape} (h : escapesOf quote letter after = .ok e) :
    Takes quote letter after e := by
  by_cases hquote : quote = Quote.single.byte
  · rw [hquote, escapesOf_single] at h
    rw [hquote]
    exact takes_of_inSingle h
  · rw [escapesOf_double hquote] at h
    exact takes_of_inDouble hquote h

end Quoted

end Literal

end IdlLexis
