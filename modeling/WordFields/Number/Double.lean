/-!
# Double-precision numbers

Numbers with a 53-bit significand, as exact data: a sign, a natural significand and a power of
two.  Values enter by rounding an exact ratio to the nearest such number, a tie going to the even
significand; products and quotients are rounded in the same way, and comparison is exact integer
arithmetic.
-/

namespace WordFields

/-- A double-precision number.  A finite one is `significand * 2 ^ exponent`, negated on demand.
In the values built here either the significand has 53 bits and the exponent is at least `-1074`,
or it has fewer and the exponent is `-1074`; zero has a sign as well. -/
inductive Double where
  | nan
  | infinity (negative : Bool)
  | finite (negative : Bool) (significand : Nat) (exponent : Int)
  deriving DecidableEq, Repr

namespace Double

/-- The exponent of the smallest step between two numbers. -/
def leastExponent : Int := -1074

/-- The largest exponent a finite number has. -/
def greatestExponent : Int := 971

def zero (negative : Bool) : Double :=
  .finite negative 0 leastExponent

/-- The natural number nearest to `num / den`, the even one of two equally near. -/
def roundToEven (num den : Nat) : Nat :=
  let quotient := num / den
  let twice := 2 * (num % den)
  if twice < den then quotient
  else if den < twice then quotient + 1
  else quotient + quotient % 2

/-- The ratio `num / den` divided by `2 ^ exponent`, as a numerator and a denominator.  One of the
two powers is one. -/
def scaleDown (num den : Nat) (exponent : Int) : Nat × Nat :=
  (num * Nat.pow 2 (-exponent).toNat, den * Nat.pow 2 exponent.toNat)

/-- The exponent with which `num / den` has a significand of 53 bits, both being positive; not
below the least exponent. -/
def exponentFor (num den : Nat) : Int :=
  let low : Int := (num.log2 : Int) - (den.log2 : Int) - 53
  let (n, d) := scaleDown num den low
  max leastExponent (if n / d < Nat.pow 2 53 then low else low + 1)

/-- The number nearest to `num / den` for a positive `den`, ties to the even significand.
What rounds beyond the largest finite number is infinite. -/
def ofRatio (negative : Bool) (num den : Nat) : Double :=
  if num = 0 then zero negative
  else
    let exponent := exponentFor num den
    let (n, d) := scaleDown num den exponent
    let significand := roundToEven n d
    if significand < Nat.pow 2 53 then
      if exponent ≤ greatestExponent then .finite negative significand exponent
      else .infinity negative
    else if exponent < greatestExponent then .finite negative (Nat.pow 2 52) (exponent + 1)
    else .infinity negative

/-- How many digits a number has in decimal; one for zero. -/
def decimalLength (n : Nat) : Nat :=
  (Nat.toDigits 10 n).length

/-- The number nearest to `digits * 10 ^ exponent`.  Values of at least `10 ^ 309` and below
`10 ^ (-324)` are settled by their length, so a huge exponent costs nothing. -/
def ofDecimal (negative : Bool) (digits : Nat) (exponent : Int) : Double :=
  if digits = 0 then zero negative
  else
    let length : Int := decimalLength digits
    if 310 ≤ length + exponent then .infinity negative
    else if length + exponent ≤ -324 then zero negative
    else ofRatio negative (digits * Nat.pow 10 exponent.toNat) (Nat.pow 10 (-exponent).toNat)

/-- The number nearest to an integer. -/
def ofInt (n : Int) : Double :=
  ofRatio (n < 0) n.natAbs 1

/-! ## Arithmetic

A product or a quotient is the exact one, rounded once. -/

def isZero : Double → Bool
  | .finite _ 0 _ => true
  | _ => false

def isNegative : Double → Bool
  | .nan => false
  | .infinity negative => negative
  | .finite negative _ _ => negative

/-- The number of the same size with a sign. -/
def withSign (negative : Bool) : Double → Double
  | .nan => .nan
  | .infinity _ => .infinity negative
  | .finite _ significand exponent => .finite negative significand exponent

/-- The product of two numbers. -/
def mul : Double → Double → Double
  | .finite negative s e, .finite negative' s' e' =>
    let (num, den) := scaleDown (s * s') 1 (-(e + e'))
    ofRatio (negative != negative') num den
  | .nan, _ => .nan
  | _, .nan => .nan
  | x, y =>
    if x.isZero || y.isZero then .nan else .infinity (x.isNegative != y.isNegative)

/-- The quotient of two numbers. -/
def div : Double → Double → Double
  | .finite negative s e, .finite negative' s' e' =>
    if s' = 0 then if s = 0 then .nan else .infinity (negative != negative')
    else
      let (num, den) := scaleDown s s' (e' - e)
      ofRatio (negative != negative') num den
  | .infinity negative, .finite negative' _ _ => .infinity (negative != negative')
  | .finite negative _ _, .infinity negative' => zero (negative != negative')
  | _, _ => .nan

/-- The number nearest to `10 ^ n`. -/
def tenPower (n : Nat) : Double :=
  ofDecimal false 1 n

/-! ## Order

`steps` places a number on the line of integers, one unit being the smallest step. -/

/-- A number in units of `2 ^ (-1074)`, exactly; the infinities lie beyond all finite numbers. -/
def steps? : Double → Option Int
  | .nan => none
  | .infinity negative => some (signed negative (Nat.pow 2 2099))
  | .finite negative significand exponent =>
    some (signed negative (significand * Nat.pow 2 (exponent - leastExponent).toNat))
where
  signed (negative : Bool) (size : Nat) : Int := if negative then -(size : Int) else size

/-- Whether `a < b`; nothing is less than `nan` or more. -/
def lt (a b : Double) : Bool :=
  match a.steps?, b.steps? with
  | some x, some y => x < y
  | _, _ => false

/-- Whether `a ≤ b`; `nan` is not even equal to itself. -/
def le (a b : Double) : Bool :=
  match a.steps?, b.steps? with
  | some x, some y => x ≤ y
  | _, _ => false

/-! ## The 64-bit word -/

/-- The word that stores a number: a sign bit, eleven bits of exponent, 52 bits of fraction. -/
def toWord : Double → Nat
  | .nan => 0x7ff8000000000000
  | .infinity negative => signBit negative + 0x7ff0000000000000
  | .finite negative significand exponent =>
    if significand < Nat.pow 2 52 then signBit negative + significand
    else
      signBit negative + (exponent - leastExponent + 1).toNat * Nat.pow 2 52 +
        (significand - Nat.pow 2 52)
where
  signBit (negative : Bool) : Nat := if negative then Nat.pow 2 63 else 0

end Double

end WordFields
