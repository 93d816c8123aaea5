import WordFields.Number.Double
import WordFields.Text.Blank
import WordFields.Text.Search

/-!
# Numerals

The numeric reading of a text.  Blank characters around it do not count and a blank text is zero.
Beyond that a text is a number if it is one of the spellings of infinity, an integer of radix 16,
8 or 2 behind its marker, or a decimal numeral.  Every other text reads as `nan`.
-/

namespace WordFields.Numeral

open Text

/-- The value of a digit of any radix up to 36. -/
def digitValue? (c : Char) : Option Nat :=
  if '0' ≤ c && c ≤ '9' then some (c.toNat - '0'.toNat)
  else if 'a' ≤ c && c ≤ 'z' then some (c.toNat - 'a'.toNat + 10)
  else if 'A' ≤ c && c ≤ 'Z' then some (c.toNat - 'A'.toNat + 10)
  else none

/-- The value of a digit of one radix. -/
def digitOf? (radix : Nat) (c : Char) : Option Nat :=
  (digitValue? c).filter (· < radix)

def isDigit (c : Char) : Bool :=
  '0' ≤ c && c ≤ '9'

/-- The number that a row of digits denotes, continuing from `value`; `none` at a character that
is not a digit of the radix. -/
def readDigits? (radix : Nat) : Nat → List Char → Option Nat
  | value, [] => some value
  | value, c :: text =>
    match digitOf? radix c with
    | some digit => readDigits? radix (value * radix + digit) text
    | none => none

/-- The number that decimal digits denote; characters of other kinds add nothing. -/
def ofDigits (digits : List Char) : Nat :=
  digits.foldl (fun value c => value * 10 + (c.toNat - '0'.toNat)) 0

/-- One past the largest natural number of 64 bits. -/
def wordLimit : Nat := Nat.pow 2 64

/-- A natural number of 64 bits: digits, at least one, behind an optional plus sign. -/
def word? (radix : Nat) (text : List Char) : Option Nat :=
  let digits := match text with
    | '+' :: rest => rest
    | text => text
  if digits.isEmpty then none
  else (readDigits? radix 0 digits).filter (· < wordLimit)

/-- The radices that have a marker of their own. -/
def radixMarkers : List (String × Nat) :=
  [("0x", 16), ("0X", 16), ("0o", 8), ("0O", 8), ("0b", 2), ("0B", 2)]

/-- The radix a text announces, and what follows the marker. -/
def radixOf? (text : List Char) : Option (Nat × List Char) :=
  radixMarkers.findSome? fun (marker, radix) =>
    (after? marker.toList text).map fun digits => (radix, digits)

/-! ## Decimal numerals -/

/-- An optional sign, and whether it is a minus. -/
def readSign : List Char → Bool × List Char
  | '-' :: text => (true, text)
  | '+' :: text => (false, text)
  | text => (false, text)

/-- The exponent that ends a decimal numeral: nothing, or `e`, an optional sign and digits. -/
def readExponent? : List Char → Option Int
  | [] => some 0
  | c :: text =>
    if c = 'e' ∨ c = 'E' then
      let (negative, digits) := readSign text
      if digits.isEmpty || !digits.all isDigit then none
      else some (if negative then -(ofDigits digits : Int) else ofDigits digits)
    else none

/-- The digits after a point, if there is one, and what follows them. -/
def readFraction : List Char → List Char × List Char
  | '.' :: text => (text.takeWhile isDigit, text.dropWhile isDigit)
  | text => ([], text)

/-- An optional sign, digits with an optional point among, before or after them, and an optional
exponent. -/
def decimal? (text : List Char) : Option Double :=
  let (negative, unsigned) := readSign text
  let whole := unsigned.takeWhile isDigit
  let (fraction, rest) := readFraction (unsigned.dropWhile isDigit)
  if whole.isEmpty && fraction.isEmpty then none
  else
    (readExponent? rest).map fun exponent =>
      Double.ofDecimal negative (ofDigits (whole ++ fraction)) (exponent - fraction.length)

/-- The numeric reading of a text. -/
def toDouble (text : List Char) : Double :=
  let trimmed := trim text
  if trimmed.isEmpty then Double.zero false
  else if trimmed = "Infinity".toList ∨ trimmed = "+Infinity".toList then .infinity false
  else if trimmed = "-Infinity".toList then .infinity true
  else
    match radixOf? trimmed with
    | some (radix, digits) =>
      match word? radix digits with
      | some n => Double.ofInt n
      | none => .nan
    | none => (decimal? trimmed).getD .nan

end WordFields.Numeral
