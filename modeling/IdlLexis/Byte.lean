/-!
Bytes of an interface text, and the classes of bytes that its lexical rules speak of.
-/

namespace IdlLexis

abbrev Byte := UInt8

abbrev Bytes := List Byte

namespace Byte

def tab : Byte := 0x09
def lineFeed : Byte := 0x0a
def carriageReturn : Byte := 0x0d
def space : Byte := 0x20
def hash : Byte := 0x23
def star : Byte := 0x2a
def dot : Byte := 0x2e
def slash : Byte := 0x2f
def zero : Byte := 0x30
def backslash : Byte := 0x5c
def lowerX : Byte := 0x78

def isDigit (b : Byte) : Bool := 0x30 ≤ b && b ≤ 0x39

def isUpper (b : Byte) : Bool := 0x41 ≤ b && b ≤ 0x5a

def isLower (b : Byte) : Bool := 0x61 ≤ b && b ≤ 0x7a

def isHexDigit (b : Byte) : Bool :=
  isDigit b || (0x41 ≤ b && b ≤ 0x46) || (0x61 ≤ b && b ≤ 0x66)

def isWordStart (b : Byte) : Bool := isLower b || isUpper b || b == 0x5f

def isWord (b : Byte) : Bool := isWordStart b || isDigit b

/-- Space, tab and carriage return; only a line feed ends a line. -/
def isBlank (b : Byte) : Bool := b == space || b == tab || b == carriageReturn

def isSign (b : Byte) : Bool := b == 0x2b || b == 0x2d

def isExponentMark (b : Byte) : Bool := b == 0x65 || b == 0x45

/-! Digits in a radix up to 36: the decimal digits, then the letters in either case. -/

def alphanumericValue? (b : Byte) : Option Nat :=
  if isDigit b then some (b.toNat - 0x30)
  else if isLower b then some (b.toNat - 0x61 + 10)
  else if isUpper b then some (b.toNat - 0x41 + 10)
  else none

def digitValue? (radix : Nat) (b : Byte) : Option Nat :=
  (alphanumericValue? b).filter (· < radix)

theorem digitValue?_lt {radix value : Nat} {b : Byte}
    (h : digitValue? radix b = some value) : value < radix := by
  rw [digitValue?, Option.filter_eq_some_iff] at h
  exact of_decide_eq_true h.2

end Byte

end IdlLexis
