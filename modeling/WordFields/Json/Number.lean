import WordFields.Json.Fault
import WordFields.Json.Value
import WordFields.Number.Numeral

/-!
# Scanning JSON numbers

A number is scanned in three parts, the digits before a point, those behind it and an exponent.  An
integer of 64 bits is kept as it is written.  Every other number is computed from its parts in
double precision.
-/

namespace WordFields.Json

/-! ## Parts -/

/-- The digits at the start of a text, and the text after them. -/
def cutDigits (text : List Char) : List Char × List Char :=
  (text.takeWhile Numeral.isDigit, text.dropWhile Numeral.isDigit)

/-- The largest exponent that is looked at. -/
def exponentLimit : Nat := Nat.pow 2 31

/-- Whether a number has digits that make it larger than any exponent allows, once its exponent
has passed the limit. -/
def readExponentDigits (canOverflow : Bool) : Nat → List Char → Scan Nat
  | value, [] => .ok (value, [])
  | value, c :: text =>
    if Numeral.isDigit c then
      let value := value * 10 + (c.toNat - '0'.toNat)
      if exponentLimit ≤ value ∧ canOverflow then failBefore .numberOutOfRange text
      else readExponentDigits canOverflow value text
    else .ok (value, c :: text)

/-- The exponent of a number, if one follows; `isZero` tells that all digits before it are zero. -/
def readExponent (isZero : Bool) : List Char → Scan (Option Int)
  | [] => .ok (none, [])
  | c :: text =>
    if c = 'e' ∨ c = 'E' then
      let (negative, digits) := Numeral.readSign text
      match digits with
      | [] => failAt .endInValue []
      | d :: rest =>
        if Numeral.isDigit d then
          match readExponentDigits (!isZero && !negative) 0 (d :: rest) with
          | .error fault => .error fault
          | .ok (n, rest) => .ok (some (if negative then -(n : Int) else n), rest)
        else failAt .invalidNumber (d :: rest)
    else .ok (none, c :: text)

/-- The digits before the point: a lone zero, or digits that do not start with one. -/
def readWhole : List Char → Scan (List Char)
  | [] => failAt .endInValue []
  | c :: text =>
    if !Numeral.isDigit c then failAt .invalidNumber (c :: text)
    else if c = '0' then
      match text with
      | d :: rest =>
        if Numeral.isDigit d then failAt .invalidNumber (d :: rest) else .ok (['0'], d :: rest)
      | [] => .ok (['0'], [])
    else .ok (cutDigits (c :: text))

/-- The digits after the point, if there is a point. -/
def readFraction : List Char → Scan (Option (List Char))
  | '.' :: text =>
    match cutDigits text with
    | ([], []) => failAt .endInValue []
    | ([], rest) => failAt .invalidNumber rest
    | (digits, rest) => .ok (some digits, rest)
  | text => .ok (none, text)

/-! ## Values

Only the first digits count that make a number of 64 bits.  This number is rounded, multiplied with
or divided by a power of ten that is rounded as well, and the result is rounded again, so it need
not be the double nearest to what is written. -/

/-- The number of the digits that together with `value` before them have 64 bits, as many as there
are, and the digits after them. -/
def takeWord : Nat → List Char → Nat × List Char
  | value, [] => (value, [])
  | value, c :: digits =>
    let next := value * 10 + (c.toNat - '0'.toNat)
    if next < Numeral.wordLimit then takeWord next digits else (value, c :: digits)

/-- The largest power of ten that a number is multiplied with or divided by at once. -/
def greatestPower : Nat := 308

/-- The number `x * 10 ^ exponent` with every intermediate result rounded.  Divided by the largest
power of ten time and again a number becomes zero, and zero stays what it is. -/
def scaleByTen (x : Double) (exponent : Int) : Double :=
  if exponent.natAbs ≤ greatestPower then
    if 0 ≤ exponent then x.mul (Double.tenPower exponent.natAbs)
    else x.div (Double.tenPower exponent.natAbs)
  else if x.isZero then x
  else if 0 ≤ exponent then .infinity false
  else scaleByTen (x.div (Double.tenPower greatestPower)) (exponent + greatestPower)
termination_by (-exponent).toNat
decreasing_by simp only [greatestPower]; omega

/-- The number with a sign, digits of 64 bits and an exponent. -/
def ofParts (negative : Bool) (digits : Nat) (exponent : Int) : Double :=
  (scaleByTen (Double.ofInt digits) exponent).withSign negative

/-- The number of the digits before a point, those behind it and an exponent.  Digits before the
point that do not count are zeros; behind the point they are nothing. -/
def decimal (negative : Bool) (whole fraction : List Char) (exponent : Int) : Double :=
  let (digits, excess) := takeWord 0 whole
  let (digits, ignored) := takeWord digits fraction
  ofParts negative digits (exponent + excess.length - (fraction.length - ignored.length : Int))

/-- The number of digits without point and exponent.  It is a double where it has no 64 bits with
its sign, and zero is one behind a minus sign. -/
def integral (negative : Bool) (whole : List Char) : JsonNumber :=
  match takeWord 0 whole with
  | (n, []) =>
    if !negative then .integer n
    else if n = 0 ∨ Nat.pow 2 63 < n then .double ((Double.ofInt n).withSign true)
    else .integer (-n)
  | (digits, excess) => .double (ofParts negative digits excess.length)

/-- The number at the start of a text. -/
def readNumber (text : List Char) : Scan JsonNumber :=
  let (negative, unsigned) : Bool × List Char := match text with
    | '-' :: text => (true, text)
    | text => (false, text)
  match readWhole unsigned with
  | .error fault => .error fault
  | .ok (whole, rest) =>
    match readFraction rest with
    | .error fault => .error fault
    | .ok (fraction, rest) =>
      match readExponent ((whole ++ fraction.getD []).all (· = '0')) rest with
      | .error fault => .error fault
      | .ok (exponent, rest) =>
        let number :=
          if fraction.isNone ∧ exponent.isNone then integral negative whole
          else .double (decimal negative whole (fraction.getD []) (exponent.getD 0))
        match number with
        | .double (.infinity _) => failBefore .numberOutOfRange rest
        | number => .ok (number, rest)

/-! ## Numbers that are passed over -/

/-- Passes over a number; only its form counts, and where it breaks off it is an invalid one. -/
def skipNumber (text : List Char) : Scan Unit :=
  let unsigned := match text with
    | '-' :: text => text
    | text => text
  match readWhole unsigned with
  | .error fault => .error { fault with cause := .invalidNumber }
  | .ok (_, rest) =>
    match readFraction rest with
    | .error fault => .error { fault with cause := .invalidNumber }
    | .ok (_, rest) =>
      match readExponent true rest with
      | .error fault => .error { fault with cause := .invalidNumber }
      | .ok (_, rest) => .ok ((), rest)

end WordFields.Json
