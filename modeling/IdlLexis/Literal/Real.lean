import IdlLexis.Decimal.Nearest
import IdlLexis.Literal.Integer
/-!
Real literals: an optional sign, digits, optionally a point with or without digits after it,
and optionally an exponent. The value is the nearest binary number, which must be finite.
-/

namespace IdlLexis

namespace Literal

namespace Real

def digitValues (digits : Bytes) : List Nat := digits.map fun b => b.toNat - 0x30

/-- An exponent grows until it takes more than sixteen bits; its further digits do not matter. -/
def exponentValue (digits : Bytes) : Nat :=
  (digitValues digits).foldl (fun n digit => if n < 0x10000 then n * 10 + digit else n) 0

/-- The digits after a point, if there is one, and what follows them. -/
def splitFraction : Bytes → Bytes × Bytes
  | [] => ([], [])
  | b :: rest =>
      if b = Byte.dot then (rest.takeWhile Byte.isDigit, rest.dropWhile Byte.isDigit)
      else ([], b :: rest)

/-- What ends a real literal: nothing, or an exponent. -/
def exponent? : Bytes → Option Int
  | [] => some 0
  | b :: rest =>
      let (negative, digits) := splitSign rest
      if Byte.isExponentMark b && !digits.isEmpty && digits.all Byte.isDigit then
        some (if negative then -(exponentValue digits) else exponentValue digits)
      else none

def parse? (text : Bytes) : Option Decimal := do
  let (negative, unsigned) := splitSign text
  let whole := unsigned.takeWhile Byte.isDigit
  let (fraction, ending) := splitFraction (unsigned.dropWhile Byte.isDigit)
  guard !whole.isEmpty
  let exponent ← exponent? ending
  return ⟨negative, digitValues (whole ++ fraction), exponent - fraction.length⟩

def decode (text : Bytes) : Except Failure Binary64 :=
  match parse? text with
  | none => .error (.malformedReal (Utf8.lossy text))
  | some d =>
      let value := Binary64.ofDecimal d
      if value.isFinite then .ok value else .error (.realOutOfRange (Utf8.lossy text))

end Real

end Literal

end IdlLexis
