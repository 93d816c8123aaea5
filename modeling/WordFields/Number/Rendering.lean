import WordFields.Number.Shortest

/-!
# Renderings of numbers

The text of a number as a template author meets it.  Integers are written out in full.  Other
doubles show their shortest decimal, positionally from `10 ^ (-6)` up to `10 ^ 21` and with an
exponent outside that range; integral doubles below `10 ^ 21` are written out like integers, and
negative zero shows no sign.
-/

namespace WordFields

/-- The decimal digits of a natural number. -/
def naturalText (n : Nat) : List Char :=
  Nat.toDigits 10 n

/-- The decimal digits of an integer behind a minus sign where it is negative. -/
def integerText (n : Int) : List Char :=
  if n < 0 then '-' :: naturalText n.natAbs else naturalText n.natAbs

namespace Decimal

/-- The exponent of the leading digit. -/
def leading (d : Decimal) : Int :=
  (naturalText d.digits).length + d.exponent - 1

/-- One digit, the others behind a point, and the signed exponent of the first. -/
def scientificText (d : Decimal) : List Char :=
  let digits := naturalText d.digits
  let point := if digits.length ≤ 1 then [] else '.' :: digits.drop 1
  let sign := if d.leading < 0 then '-' else '+'
  digits.take 1 ++ point ++ 'e' :: sign :: naturalText d.leading.natAbs

/-- All digits around a point, zeros standing in where none are known. -/
def positionalText (d : Decimal) : List Char :=
  let digits := naturalText d.digits
  if 0 ≤ d.exponent then digits ++ List.replicate d.exponent.natAbs '0'
  else
    let places := d.exponent.natAbs
    if digits.length ≤ places then
      '0' :: '.' :: (List.replicate (places - digits.length) '0' ++ digits)
    else digits.take (digits.length - places) ++ '.' :: digits.drop (digits.length - places)

end Decimal

namespace Double

/-- The value of `significand * 2 ^ exponent` if it is a natural number. -/
def natural? (significand : Nat) (exponent : Int) : Option Nat :=
  let num := significand * Nat.pow 2 exponent.toNat
  let den := Nat.pow 2 (-exponent).toNat
  if num % den = 0 then some (num / den) else none

/-- The text of `significand * 2 ^ exponent`. -/
def sizeText (significand : Nat) (exponent : Int) : List Char :=
  match (natural? significand exponent).filter (· < Nat.pow 10 21) with
  | some n => naturalText n
  | none =>
    let decimal := shortest significand exponent
    if -6 ≤ decimal.leading ∧ decimal.leading < 21 then decimal.positionalText
    else decimal.scientificText

/-- The rendering of a double. -/
def text : Double → List Char
  | .nan => "NaN".toList
  | .infinity negative => if negative then "-Infinity".toList else "Infinity".toList
  | .finite negative significand exponent =>
    if negative ∧ significand ≠ 0 then '-' :: sizeText significand exponent
    else sizeText significand exponent

end Double

end WordFields
