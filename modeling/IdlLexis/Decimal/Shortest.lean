import IdlLexis.Decimal.Nearest
/-!
The shortest decimal text of a binary number: the fewest digits that read back as the number,
and among those the nearest to it, the greater one on a tie.
-/

namespace IdlLexis

namespace Binary64

def magnitude (x : Binary64) : Fraction := .scaled x.significand 2 x.exponent

/-! The decimals that read back as a positive number lie between two bounds half a unit away.
Just below a power of two the units are half as large. The bounds themselves read back if the
significand is even. -/

def isLeastOfOrder (x : Binary64) : Bool := x.significand == leadingBit && 1 < x.exponentField

def lowerBound (x : Binary64) : Fraction :=
  .scaled (4 * x.significand - if x.isLeastOfOrder then 1 else 2) 2 (x.exponent - 2)

def upperBound (x : Binary64) : Fraction := .scaled (4 * x.significand + 2) 2 (x.exponent - 2)

def readsBack (x : Binary64) (a : Fraction) : Bool :=
  if x.significand % 2 = 0 then x.lowerBound.le a && a.le x.upperBound
  else x.lowerBound.lt a && a.lt x.upperBound

/-- The greatest power of ten that a positive magnitude reaches. -/
def decimalOrder (x : Binary64) : Int :=
  (Nat.toDigits 10 (x.magnitude.divPow 10 (-400)).floor).length - 401

/-- The multiple of `10 ^ power` that reads back and lies nearest, if there is one. -/
def onGrid (x : Binary64) (power : Int) : Option Nat :=
  let below := (x.magnitude.divPow 10 power).floor
  let middle := Fraction.scaled (10 * below + 5) 10 (power - 1)
  match x.readsBack (.scaled below 10 power), x.readsBack (.scaled (below + 1) 10 power) with
  | true, true => some (if x.magnitude.lt middle then below else below + 1)
  | true, false => some below
  | false, true => some (below + 1)
  | false, false => none

/-- The digits of a positive finite number, and the power of ten of the last of them. -/
def shortest (x : Binary64) : Nat × Int :=
  let grid := fun (count : Nat) => x.decimalOrder - count
  ((List.range 17).findSome? fun count =>
    (x.onGrid (grid count)).map fun coefficient => (coefficient, grid count)).getD (0, 0)

/-! Where the point goes. -/

/-- Powers of ten between which a first digit is written positionally. -/
structure Layout where
  least : Int
  greatest : Int

/-- From a ten-thousandth on and below `10 ^ 16` there is a point and no exponent. -/
def layout : Layout := ⟨-4, 15⟩

def zeros (count : Int) : List Char := List.replicate count.toNat '0'

def positional (digits : List Char) (order : Int) : List Char :=
  let whole := digits.take (order + 1).toNat
  let fraction := digits.drop (order + 1).toNat
  (if whole.isEmpty then ['0'] else whole ++ zeros (order + 1 - whole.length)) ++
    '.' :: (if fraction.isEmpty then ['0'] else zeros (-order - 1) ++ fraction)

def exponential (digits : List Char) (order : Int) : List Char :=
  digits.take 1 ++ (if digits.length ≤ 1 then [] else '.' :: digits.drop 1) ++
    'e' :: (toString order).toList

def displayMagnitude (x : Binary64) : List Char :=
  if x.isZero then ['0', '.', '0']
  else
    let (coefficient, power) := x.shortest
    let digits := Nat.toDigits 10 coefficient
    let order := power + digits.length - 1
    let digits := (digits.reverse.dropWhile (· == '0')).reverse
    if layout.least ≤ order ∧ order ≤ layout.greatest then positional digits order
    else exponential digits order

def display (x : Binary64) : String :=
  if x.isNaN then "NaN"
  else
    let sign := if x.isNegative then ['-'] else []
    let magnitude := if x.isFinite then x.displayMagnitude else ['i', 'n', 'f']
    String.ofList (sign ++ magnitude)

end Binary64

end IdlLexis
