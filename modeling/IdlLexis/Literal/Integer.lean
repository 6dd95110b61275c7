import IdlLexis.Literal.Failure
import IdlLexis.Text.Utf8
/-!
Integer literals: decimal digits after an optional sign, or hexadecimal digits after `0x`.
The value is followed digit by digit, downwards after a minus sign, and must stay within 64
signed bits; the first byte at which it leaves them, or which is no digit, decides the failure.
-/

namespace IdlLexis

namespace Literal

/-- Whether a minus sign comes first, and what follows the sign. -/
def splitSign : Bytes → Bool × Bytes
  | [] => (false, [])
  | b :: rest =>
      if b = 0x2d then (true, rest)
      else if b = 0x2b then (false, rest)
      else (false, b :: rest)

namespace Integer

def fits (value : Int) : Bool := -0x8000000000000000 ≤ value && value < 0x8000000000000000

structure Numeral where
  radix : Nat
  negative : Bool
  digits : Bytes

def split (text : Bytes) : Numeral :=
  match List.isPrefixOf? [Byte.zero, Byte.lowerX] text with
  | some digits => ⟨16, false, digits⟩
  | none => ⟨10, (splitSign text).1, (splitSign text).2⟩

def step (n : Numeral) (value : Int) (digit : Nat) : Int :=
  if n.negative then value * n.radix - digit else value * n.radix + digit

/-- Carries `value` on over `digits`; the failures are taken without their text. -/
def follow (n : Numeral) (value : Int) : Bytes → Except (String → Failure) Int
  | [] => .ok value
  | b :: rest =>
      match Byte.digitValue? n.radix b with
      | none => .error .malformedInteger
      | some digit =>
          if fits (step n value digit) then follow n (step n value digit) rest
          else .error .integerOutOfRange

def decode (text : Bytes) : Except Failure Int :=
  let n := split text
  if n.digits.isEmpty then .error (.malformedInteger (Utf8.lossy text))
  else (follow n 0 n.digits).mapError (· (Utf8.lossy text))

end Integer

end Literal

end IdlLexis
