import IdlLexis.Lexeme
import IdlLexis.Source.Reader
/-!
Reading one lexeme. The first byte decides which rule applies; each rule then takes the longest
stretch it can. Where two rules begin alike, at most two bytes ahead decide between them, so a
reader never goes back.
-/

namespace IdlLexis

namespace Reader

def one (r : Reader) (category : Lexeme.Category) :
    Except Fault (Lexeme.Category × Reader) := do
  let r ← r.advance 1
  return (category, r)

def readBlank (r : Reader) : Except Fault (Lexeme.Category × Reader) := do
  let r ← r.skipBlanks
  return (.blank, r)

/-- A zero byte belongs to no rule, unless it is the one that follows the text. -/
def readZero (r : Reader) : Except Fault (Lexeme.Category × Reader) := do
  if ← r.atEnd then return (.endOfText, r)
  else r.one .strayByte

/-! Comments. A closed comment is a doc comment if it begins with two stars and has a body. -/

def readLineComment (r : Reader) (mark : Nat) : Except Fault (Lexeme.Category × Reader) := do
  let r ← r.advance mark
  let r ← r.skipToLineEnd
  return (.lineComment, r)

def readBlockComment (r : Reader) : Except Fault (Lexeme.Category × Reader) := do
  let third ← r.look 2
  let body ← r.advance 2
  let (closed, stop) ← body.skipCommentBody
  if closed then
    let length ← Offset.sub stop.offset r.offset
    return (if third = Byte.star ∧ 4 < length then .docComment else .blockComment, stop)
  else return (.openComment, stop)

def readSlash (r : Reader) : Except Fault (Lexeme.Category × Reader) := do
  let next ← r.look 1
  if next = Byte.slash then r.readLineComment 2
  else if next = Byte.star then r.readBlockComment
  else r.one .strayByte

/-! Words. A dot joins two words only if the second is not empty. -/

def continuesWord (r : Reader) : Except Fault Bool := do
  let b ← r.look 0
  if Byte.isWord b then return true
  else if b = Byte.dot then Byte.isWord <$> r.look 1
  else return false

def readWord (r : Reader) : Except Fault (Lexeme.Category × Reader) := do
  let r ← r.advance 1
  let r ← r.advanceWhile continuesWord
  return (.word, r)

/-! Numbers. A point makes a number real; an exponent counts only after a point and only if it
has digits. -/

def skipExponent (r : Reader) : Except Fault Reader := do
  let mark ← r.look 0
  if Byte.isExponentMark mark then
    let next ← r.look 1
    if Byte.isDigit next then
      let r ← r.advance 1
      r.skipWhile Byte.isDigit
    else if Byte.isSign next then
      let digit ← r.look 2
      if Byte.isDigit digit then
        let r ← r.advance 2
        r.skipWhile Byte.isDigit
      else return r
    else return r
  else return r

def readDecimal (r : Reader) : Except Fault (Lexeme.Category × Reader) := do
  let r ← r.skipWhile Byte.isDigit
  let b ← r.look 0
  if b = Byte.dot then
    let r ← r.advance 1
    let r ← r.skipWhile Byte.isDigit
    let r ← r.skipExponent
    return (.real, r)
  else return (.integer, r)

/-- A hexadecimal number needs a digit after its `0x`. -/
def startsHex (r : Reader) : Except Fault Bool := do
  let first ← r.look 0
  if first = Byte.zero then
    let second ← r.look 1
    if second = Byte.lowerX then Byte.isHexDigit <$> r.look 2
    else return false
  else return false

def readNumber (r : Reader) : Except Fault (Lexeme.Category × Reader) := do
  if ← r.startsHex then
    let r ← r.advance 2
    let r ← r.skipWhile Byte.isHexDigit
    return (.hexInteger, r)
  else r.readDecimal

def readSigned (r : Reader) : Except Fault (Lexeme.Category × Reader) := do
  let next ← r.look 1
  if Byte.isDigit next then
    let r ← r.advance 1
    r.readDecimal
  else r.one .strayByte

/-! Quoted literals. A backslash takes the byte after it along, whatever it is, but neither a
line feed nor the end of the text. -/

def passEscape (r : Reader) : Except Fault (Bool × Reader) := do
  let r ← r.advance 1
  let b ← r.look 0
  if b = Byte.lineFeed then return (false, r)
  else if ← r.atEnd then return (false, r)
  else
    let r ← r.advance 1
    return (true, r)

theorem offset_of_passEscape {r r' : Reader} {passed : Bool}
    (h : r.passEscape = .ok (passed, r')) :
    r'.source = r.source ∧ r.offset < r'.offset := by
  obtain ⟨r₁, hadvance, h⟩ := Fault.bind_eq_ok.mp h
  rw [advance_eq_ok hadvance] at h
  obtain ⟨b, _, h⟩ := Fault.bind_eq_ok.mp h
  split at h
  · cases h
    exact ⟨rfl, Nat.lt_succ_self _⟩
  · obtain ⟨ended, _, h⟩ := Fault.bind_eq_ok.mp h
    cases ended with
    | true =>
        cases h
        exact ⟨rfl, Nat.lt_succ_self _⟩
    | false =>
        obtain ⟨r₂, hadvance, h⟩ := Fault.bind_eq_ok.mp h
        rw [advance_eq_ok hadvance] at h
        cases h
        exact ⟨rfl, Nat.lt_add_of_pos_right Nat.two_pos⟩

theorem passEscape_nearer {r stop rest : Reader} {quote b : Byte}
    (hstop : r.skipToDelimiter quote = .ok (some b, stop))
    (hpass : stop.passEscape = .ok (true, rest)) :
    rest.source.length - rest.offset < r.source.length - r.offset := by
  obtain ⟨hreach, hlt, _⟩ := skipToDelimiter_eq_some hstop
  obtain ⟨hsource, hpassed⟩ := offset_of_passEscape hpass
  have hle := hreach.offset_le
  rw [hsource, hreach.source_eq]
  omega

/-- Passes the closing quote; `false` where the literal is cut off. -/
def closeQuote (quote : Quote) (r : Reader) : Except Fault (Bool × Reader) :=
  match hstop : r.skipToDelimiter quote.byte with
  | .error fault => .error fault
  | .ok (none, stop) => .ok (false, stop)
  | .ok (some b, stop) =>
      if b = Byte.backslash then
        match hpass : stop.passEscape with
        | .error fault => .error fault
        | .ok (false, cut) => .ok (false, cut)
        | .ok (true, rest) =>
            have := passEscape_nearer hstop hpass
            rest.closeQuote quote
      else if b = Byte.lineFeed then .ok (false, stop)
      else do
        let r ← stop.advance 1
        return (true, r)
termination_by r.source.length - r.offset

def readQuoted (r : Reader) (quote : Quote) : Except Fault (Lexeme.Category × Reader) := do
  let r ← r.advance 1
  let (closed, r) ← r.closeQuote quote
  return (if closed then .quoted quote else .openQuote, r)

/-! The rule that a first byte selects. -/

def classify (r : Reader) : Except Fault (Lexeme.Category × Reader) := do
  let b ← r.look 0
  if b = 0 then r.readZero
  else if Byte.isBlank b then r.readBlank
  else if b = Byte.lineFeed then r.one .newline
  else if Byte.isWordStart b then r.readWord
  else if Byte.isDigit b then r.readNumber
  else if Byte.isSign b then r.readSigned
  else if b = Byte.hash then r.readLineComment 1
  else if b = Byte.slash then r.readSlash
  else
    match Quote.ofByte? b, Symbol.ofByte? b with
    | some quote, _ => r.readQuoted quote
    | none, some symbol => r.one (.symbol symbol)
    | none, none => r.one .strayByte

/-- The lexeme at the reader, and a reader after it. -/
def next (r : Reader) : Except Fault (Lexeme × Reader) := do
  let (category, stop) ← r.classify
  let length ← Offset.sub stop.offset r.offset
  return (⟨category, length⟩, stop)

end Reader

end IdlLexis
