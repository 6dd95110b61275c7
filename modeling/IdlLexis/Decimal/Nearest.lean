import IdlLexis.Decimal.Binary64
/-!
The binary number nearest to a decimal one. Of two that are equally near, the one with an even
significand is taken; what lies half a unit or more above the largest finite number is infinite.
-/

namespace IdlLexis

/-- The number `±d₁d₂…dₙ · 10 ^ scale`. -/
structure Decimal where
  negative : Bool
  digits : List Nat
  scale : Int
  deriving DecidableEq, Repr

namespace Decimal

def coefficient (d : Decimal) : Nat := d.digits.foldl (fun n digit => n * 10 + digit) 0

/-- The magnitude lies below `10 ^ order` and, unless it is zero, not below a tenth of it. -/
def order (d : Decimal) : Int := (d.digits.dropWhile (· == 0)).length + d.scale

end Decimal

/-- A positive fraction, and zero. -/
structure Fraction where
  numerator : Nat
  denominator : Nat

namespace Fraction

/-- The number `n · base ^ power`. -/
def scaled (n base : Nat) (power : Int) : Fraction :=
  if 0 ≤ power then ⟨n * Nat.pow base power.toNat, 1⟩
  else ⟨n, Nat.pow base (-power).toNat⟩

def lt (a b : Fraction) : Bool :=
  a.numerator * b.denominator < b.numerator * a.denominator

def le (a b : Fraction) : Bool :=
  a.numerator * b.denominator ≤ b.numerator * a.denominator

def divPow (a : Fraction) (base : Nat) (power : Int) : Fraction :=
  let unit := scaled 1 base power
  ⟨a.numerator * unit.denominator, a.denominator * unit.numerator⟩

def floor (a : Fraction) : Nat := a.numerator / a.denominator

/-- The nearest integer; a half goes to the even neighbour. -/
def roundEven (a : Fraction) : Nat :=
  let below := a.floor
  let twice := 2 * (a.numerator % a.denominator)
  if twice < a.denominator then below
  else if a.denominator < twice then below + 1
  else below + below % 2

/-- The greatest power of two that a positive fraction reaches. -/
def binaryOrder (a : Fraction) : Int :=
  let guess : Int := a.numerator.log2 - a.denominator.log2
  if a.lt (scaled 1 2 guess) then guess - 1 else guess

end Fraction

namespace Binary64

/-- The units in which a magnitude of the given binary order is counted. -/
def unitExponent (order : Int) : Int := max (order - 52) (-1074)

/-- The bits of the nearest magnitude; counting on over the largest gives infinity. -/
def nearestBits (a : Fraction) : Nat :=
  if a.numerator = 0 then 0
  else
    let unit := unitExponent a.binaryOrder
    let count := (a.divPow 2 unit).roundEven
    min ((unit + 1074).toNat * leadingBit + count) infinityBits

def ofDecimal (d : Decimal) : Binary64 :=
  ofMagnitudeBits d.negative
    (if d.coefficient = 0 then 0
     else if 310 < d.order then infinityBits
     else if d.order < -325 then 0
     else nearestBits (.scaled d.coefficient 10 d.scale))

end Binary64

end IdlLexis
