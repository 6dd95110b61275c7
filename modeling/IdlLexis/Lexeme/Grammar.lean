import IdlLexis.Lexeme
/-!
The lexical grammar: which bytes each category may cover, said without a reader. A text's first
lexeme is the longest front of it that some category covers; where no category covers a front,
an error lexeme stands in.
-/

namespace IdlLexis

namespace Lexeme

/-- One or more bytes of a class. -/
def Run (test : Byte → Bool) (text : Bytes) : Prop := text ≠ [] ∧ ∀ b ∈ text, test b = true

/-- A sign or none. -/
def OptionalSign (text : Bytes) : Prop := text = [] ∨ ∃ b, Byte.isSign b = true ∧ text = [b]

/-- An exponent or none. -/
def OptionalExponent (text : Bytes) : Prop :=
  text = [] ∨
    ∃ mark sign digits, Byte.isExponentMark mark = true ∧ OptionalSign sign ∧
      Run Byte.isDigit digits ∧ text = mark :: sign ++ digits

/-- What stands between two quotes: a byte for itself, or a backslash and the byte after it. -/
inductive QuotedItem (quote : Quote) : Bytes → Prop
  | plain {b : Byte} (hquote : b ≠ quote.byte) (hbackslash : b ≠ Byte.backslash)
      (hline : b ≠ Byte.lineFeed) : QuotedItem quote [b]
  | escape {b : Byte} (hline : b ≠ Byte.lineFeed) : QuotedItem quote [Byte.backslash, b]

/-- Comment bytes in which the mark that closes a comment begins nowhere. -/
def LeavesOpen (text : Bytes) : Prop := ¬ [Byte.star, Byte.slash] <:+: text

/-- A comment up to the first mark that closes it, which may share no byte with the opening. -/
def ClosedComment (text : Bytes) : Prop :=
  ∃ body, LeavesOpen (body ++ [Byte.star]) ∧
    text = [Byte.slash, Byte.star] ++ body ++ [Byte.star, Byte.slash]

def BeginsDoc (text : Bytes) : Prop :=
  [Byte.slash, Byte.star, Byte.star] <+: text ∧ 4 < text.length

/-- The category covers the bytes. -/
inductive Covers : Category → Bytes → Prop
  | word {first : Byte} {rest : Bytes} {joined : List Bytes}
      (hfirst : Byte.isWordStart first = true) (hrest : ∀ b ∈ rest, Byte.isWord b = true)
      (hjoined : ∀ part ∈ joined, Run Byte.isWord part) :
      Covers .word (first :: rest ++ joined.flatMap (Byte.dot :: ·))
  | integer {sign digits : Bytes} (hsign : OptionalSign sign)
      (hdigits : Run Byte.isDigit digits) : Covers .integer (sign ++ digits)
  | hexInteger {digits : Bytes} (hdigits : Run Byte.isHexDigit digits) :
      Covers .hexInteger (Byte.zero :: Byte.lowerX :: digits)
  | real {sign whole fraction exponent : Bytes} (hsign : OptionalSign sign)
      (hwhole : Run Byte.isDigit whole) (hfraction : ∀ b ∈ fraction, Byte.isDigit b = true)
      (hexponent : OptionalExponent exponent) :
      Covers .real (sign ++ whole ++ Byte.dot :: fraction ++ exponent)
  | quoted {quote : Quote} {items : List Bytes} (hitems : ∀ item ∈ items, QuotedItem quote item) :
      Covers (.quoted quote) (quote.byte :: items.flatten ++ [quote.byte])
  | symbol (s : Symbol) : Covers (.symbol s) [s.byte]
  | blank {text : Bytes} (htext : Run Byte.isBlank text) : Covers .blank text
  | newline : Covers .newline [Byte.lineFeed]
  | lineComment {mark body : Bytes}
      (hmark : mark = [Byte.hash] ∨ mark = [Byte.slash, Byte.slash])
      (hbody : Byte.lineFeed ∉ body) : Covers .lineComment (mark ++ body)
  | blockComment {text : Bytes} (hclosed : ClosedComment text) (hplain : ¬ BeginsDoc text) :
      Covers .blockComment text
  | docComment {text : Bytes} (hclosed : ClosedComment text) (hdoc : BeginsDoc text) :
      Covers .docComment text

/-- The category covers a front of the text, and no category covers a longer one. -/
structure IsLongest (category : Category) (front text : Bytes) : Prop where
  covers : Covers category front
  isPrefix : front <+: text
  longest : ∀ other longer, Covers other longer → longer <+: text → longer.length ≤ front.length

/-- No category covers any front of the text. -/
def Uncovered (text : Bytes) : Prop := ∀ category front, Covers category front → ¬ front <+: text

/-- An error lexeme: a quote left open up to the end of its line, a comment left open up to the
end of the text, or one byte. -/
inductive Mistake : Category → Bytes → Bytes → Prop
  | openQuote {quote : Quote} {text : Bytes} :
      Mistake .openQuote ((quote.byte :: text).takeWhile (· != Byte.lineFeed))
        (quote.byte :: text)
  | openComment {text : Bytes} :
      Mistake .openComment (Byte.slash :: Byte.star :: text) (Byte.slash :: Byte.star :: text)
  | strayByte {b : Byte} {text : Bytes} (hquote : Quote.ofByte? b = none)
      (hcomment : b = Byte.slash → text.head? ≠ some Byte.star) :
      Mistake .strayByte [b] (b :: text)

/-- The first lexeme of a text that is not empty. -/
def First (category : Category) (front text : Bytes) : Prop :=
  IsLongest category front text ∨ (Uncovered text ∧ Mistake category front text)

theorem OptionalSign.nil : OptionalSign [] := .inl rfl

theorem OptionalExponent.nil : OptionalExponent [] := .inl rfl

theorem Run.ne_nil {test : Byte → Bool} {text : Bytes} (h : Run test text) : text ≠ [] := h.1

theorem Covers.ne_nil {category : Category} {text : Bytes} (h : Covers category text) :
    text ≠ [] := by
  cases h with
  | integer _ hdigits => simp [hdigits.ne_nil]
  | blank htext => exact htext.ne_nil
  | lineComment hmark _ => rcases hmark with rfl | rfl <;> simp
  | blockComment hclosed _ =>
      obtain ⟨body, _, rfl⟩ := hclosed
      simp
  | docComment hclosed _ =>
      obtain ⟨body, _, rfl⟩ := hclosed
      simp
  | _ => simp

theorem Covers.category_ne_endOfText {category : Category} {text : Bytes}
    (h : Covers category text) : category ≠ .endOfText := by
  cases h <;> exact Category.noConfusion

end Lexeme

end IdlLexis
