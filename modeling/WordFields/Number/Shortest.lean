import WordFields.Number.Double

/-!
# Shortest decimals

Every finite double lies in an interval of reals that all round to it.  Its *shortest decimal* is
the number in that interval with the fewest digits, and of several such the one nearest to the
double.  The search tries one digit, two digits and so on: for a given count of digits the two
neighbours of the value on that decimal grid are the only candidates, because the interval
contains the value.
-/

namespace WordFields

/-- The number `digits * 10 ^ exponent`. -/
structure Decimal where
  digits : Nat
  exponent : Int
  deriving DecidableEq, Repr

namespace Double

/-- Compares `a * 10 ^ k` with `b * 2 ^ e`, exactly: negative powers go to the other side. -/
def compareScaled (a : Nat) (k : Int) (b : Nat) (e : Int) : Ordering :=
  compare (a * Nat.pow 10 k.toNat * Nat.pow 2 (-e).toNat)
    (b * Nat.pow 2 e.toNat * Nat.pow 10 (-k).toNat)

/-- Whether `digits * 10 ^ k` rounds to `significand * 2 ^ exponent`.  The bounds are half a step
away, a quarter below the least significand of 53 bits, and count as inside when the significand
is even. -/
def roundsTo (significand : Nat) (exponent : Int) (digits : Nat) (k : Int) : Bool :=
  let below := if significand = Nat.pow 2 52 ∧ leastExponent < exponent then 1 else 2
  let lower := compareScaled digits k (4 * significand - below) (exponent - 2)
  let upper := compareScaled digits k (4 * significand + 2) (exponent - 2)
  let inside := lower == .gt && upper == .lt
  let onBound := lower == .eq || upper == .eq
  inside || (significand % 2 == 0 && onBound)

/-- The exponent of the leading decimal digit of `significand * 2 ^ exponent`, which is positive.
Multiplied by `10 ^ 330` every double is at least one, so its digits before the point count. -/
def leadingExponent (significand : Nat) (exponent : Int) : Int :=
  let scaled :=
    significand * Nat.pow 2 exponent.toNat * Nat.pow 10 330 / Nat.pow 2 (-exponent).toNat
  (decimalLength scaled : Int) - 331

/-- `significand * 2 ^ exponent / 10 ^ k`, rounded down. -/
def gridFloor (significand : Nat) (exponent k : Int) : Nat :=
  significand * Nat.pow 2 exponent.toNat * Nat.pow 10 (-k).toNat /
    (Nat.pow 2 (-exponent).toNat * Nat.pow 10 k.toNat)

/-- The neighbour of a value on the grid of multiples of `10 ^ k` that rounds to it and is nearer,
the upper one if both are equally near. -/
def onGrid? (significand : Nat) (exponent k : Int) : Option Nat :=
  let low := gridFloor significand exponent k
  let high := low + 1
  match roundsTo significand exponent low k, roundsTo significand exponent high k with
  | false, false => none
  | true, false => some low
  | false, true => some high
  | true, true =>
    if compareScaled (low + high) k (2 * significand) exponent == .gt then some low else some high

/-- A point of the grid of multiples of `10 ^ k`.  Ten is one digit on the next coarser grid; no
other multiple of ten is the first point found. -/
def gridPoint (digits : Nat) (k : Int) : Decimal :=
  if digits = 10 then ⟨1, k + 1⟩ else ⟨digits, k⟩

/-- Tries grids from coarse to fine. -/
def searchGrids (significand : Nat) (exponent : Int) : Nat → Int → Decimal
  | 0, k => ⟨gridFloor significand exponent k, k⟩
  | tries + 1, k =>
    match onGrid? significand exponent k with
    | some digits => gridPoint digits k
    | none => searchGrids significand exponent tries (k - 1)

/-- The shortest decimal of the positive number `significand * 2 ^ exponent`.  Seventeen digits
always suffice. -/
def shortest (significand : Nat) (exponent : Int) : Decimal :=
  searchGrids significand exponent 17 (leadingExponent significand exponent)

end Double

end WordFields
