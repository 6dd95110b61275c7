import IdlLexis.Byte
/-!
A byte as visible ASCII: itself if it is a visible character or a space, else an escape.
-/

namespace IdlLexis

namespace Text

def lowerHexDigit (n : Nat) : Char := Char.ofNat (if n < 10 then 0x30 + n else 0x57 + n)

def escapedByte (b : Byte) : List Char :=
  if b = 0x09 then ['\\', 't']
  else if b = 0x0d then ['\\', 'r']
  else if b = 0x0a then ['\\', 'n']
  else if b = 0x22 ∨ b = 0x27 ∨ b = 0x5c then ['\\', Char.ofNat b.toNat]
  else if 0x20 ≤ b ∧ b ≤ 0x7e then [Char.ofNat b.toNat]
  else ['\\', 'x', lowerHexDigit (b.toNat / 16), lowerHexDigit (b.toNat % 16)]

end Text

end IdlLexis
