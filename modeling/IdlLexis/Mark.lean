import IdlLexis.Byte
/-!
The marks of an interface text: the thirteen one-byte symbols, and the two quotes that a
literal may stand between.
-/

namespace IdlLexis

inductive Symbol
  | star
  | equal
  | less
  | greater
  | openParen
  | closeParen
  | openBrace
  | closeBrace
  | comma
  | semicolon
  | colon
  | openBracket
  | closeBracket
  deriving DecidableEq, Repr

namespace Symbol

def all : List Symbol :=
  [.star, .equal, .less, .greater, .openParen, .closeParen, .openBrace, .closeBrace,
    .comma, .semicolon, .colon, .openBracket, .closeBracket]

def byte : Symbol → Byte
  | star => 0x2a
  | equal => 0x3d
  | less => 0x3c
  | greater => 0x3e
  | openParen => 0x28
  | closeParen => 0x29
  | openBrace => 0x7b
  | closeBrace => 0x7d
  | comma => 0x2c
  | semicolon => 0x3b
  | colon => 0x3a
  | openBracket => 0x5b
  | closeBracket => 0x5d

def char (s : Symbol) : Char := Char.ofNat s.byte.toNat

def spelling (s : Symbol) : String := String.singleton s.char

def ofByte? (b : Byte) : Option Symbol := all.find? (·.byte == b)

theorem ofByte?_byte (s : Symbol) : ofByte? s.byte = some s := by
  cases s <;> decide

theorem byte_of_ofByte? {b : Byte} {s : Symbol} (h : ofByte? b = some s) : s.byte = b := by
  rw [ofByte?, List.find?_eq_some_iff_append] at h
  exact eq_of_beq h.1

end Symbol

inductive Quote
  | double
  | single
  deriving DecidableEq, Repr

namespace Quote

def byte : Quote → Byte
  | double => 0x22
  | single => 0x27

def ofByte? (b : Byte) : Option Quote :=
  if b == double.byte then some double
  else if b == single.byte then some single
  else none

theorem ofByte?_byte (q : Quote) : ofByte? q.byte = some q := by
  cases q <;> decide

theorem byte_of_ofByte? {b : Byte} {q : Quote} (h : ofByte? b = some q) : q.byte = b := by
  unfold ofByte? at h
  split at h
  · next heq =>
      cases h
      exact (eq_of_beq heq).symm
  · split at h
    · next heq =>
        cases h
        exact (eq_of_beq heq).symm
    · contradiction

end Quote

end IdlLexis
