/-!
Binary floating-point numbers of 64 bits: a sign, eleven bits of exponent and fifty-two bits of
fraction. A magnitude is a number of units `2 ^ exponent`, with at most fifty-three bits.
-/

namespace IdlLexis

structure Binary64 where
  bits : UInt64
  deriving DecidableEq, Repr

namespace Binary64

def signBit : Nat := 0x8000000000000000

def infinityBits : Nat := 0x7ff0000000000000

/-- The bit above the fraction, which a significand has but in the lowest numbers. -/
def leadingBit : Nat := 0x10000000000000

def isNegative (x : Binary64) : Bool := signBit ≤ x.bits.toNat

def magnitudeBits (x : Binary64) : Nat := x.bits.toNat % signBit

def isFinite (x : Binary64) : Bool := x.magnitudeBits < infinityBits

def isNaN (x : Binary64) : Bool := infinityBits < x.magnitudeBits

def isZero (x : Binary64) : Bool := x.magnitudeBits == 0

def exponentField (x : Binary64) : Nat := x.magnitudeBits / leadingBit

/-- The count of units in a finite magnitude. -/
def significand (x : Binary64) : Nat :=
  let fraction := x.magnitudeBits % leadingBit
  if x.exponentField = 0 then fraction else leadingBit + fraction

/-- The units of a finite magnitude are `2 ^ exponent`. -/
def exponent (x : Binary64) : Int := (max 1 x.exponentField : Nat) - 1075

def ofMagnitudeBits (negative : Bool) (bits : Nat) : Binary64 :=
  ⟨UInt64.ofNat (if negative then signBit + bits else bits)⟩

/-! Equality of numbers: no NaN equals anything, and the two zeros are equal. -/

def sameNumber (x y : Binary64) : Bool :=
  !x.isNaN && !y.isNaN && (x.bits == y.bits || (x.isZero && y.isZero))

theorem sameNumber_self (x : Binary64) : x.sameNumber x = !x.isNaN := by
  simp [sameNumber]

theorem sameNumber_comm (x y : Binary64) : x.sameNumber y = y.sameNumber x := by
  have hbits : (x.bits == y.bits) = (y.bits == x.bits) := Bool.beq_comm
  rw [sameNumber, sameNumber, hbits, Bool.and_comm (!x.isNaN), Bool.and_comm x.isZero]

end Binary64

end IdlLexis
