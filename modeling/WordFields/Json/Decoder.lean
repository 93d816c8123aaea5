import WordFields.Json.Reader

/-!
# Reading JSON of a known shape

A decoder reads JSON text straight into a value of some other type.  It stops at the first fault
from the left, be it in the text or in the shape, so a member of the wrong kind is reported even if
the text breaks off later.  Where another kind of value is wanted, a scalar is first read to its
end, because a fault inside it comes before the fault of having it there.

A record may be written as an object or as an array of its fields in their order.
-/

namespace WordFields.Json

/-- Reads a value inside of which fewer than the given number of brackets may be open. -/
abbrev Decoder (α : Type) := Nat → List Char → Scan α

namespace Decoder

variable {α β σ : Type}

/-- Changes what is read. -/
def map (f : α → β) (decoder : Decoder α) : Decoder β :=
  fun depth text => (decoder depth text).map fun (value, rest) => (f value, rest)

/-- The fault of having the value at the start of the text where another kind is wanted.  The text
after a value of this kind is not looked at. -/
def refuse (text : List Char) : Scan α :=
  match skipSpace text with
  | [] => failAt .endInValue []
  | c :: rest =>
    let scalar : Except Fault Unit :=
      if c = '"' then (readString rest).map fun _ => ()
      else if c = 'n' then (readWord "ull".toList rest).map fun _ => ()
      else if c = 't' then (readWord "rue".toList rest).map fun _ => ()
      else if c = 'f' then (readWord "alse".toList rest).map fun _ => ()
      else if c = '-' || Numeral.isDigit c then (readNumber (c :: rest)).map fun _ => ()
      else if c = '[' || c = '\x7b' then .ok ()
      else failAt .expectedValue (c :: rest)
    match scalar with
    | .error fault => .error fault
    | .ok () => failBefore .unexpectedShape rest

def string : Decoder String := fun _ text =>
  match skipSpace text with
  | '"' :: rest => readString rest
  | text => refuse text

def bool : Decoder Bool := fun _ text =>
  match skipSpace text with
  | 't' :: rest => (readWord "rue".toList rest).map fun (_, rest) => (true, rest)
  | 'f' :: rest => (readWord "alse".toList rest).map fun (_, rest) => (false, rest)
  | text => refuse text

/-- A natural number of 64 bits. -/
def natural : Decoder Nat := fun _ text =>
  match skipSpace text with
  | c :: rest =>
    if c = '-' || Numeral.isDigit c then
      match readNumber (c :: rest) with
      | .error fault => .error fault
      | .ok (.integer (.ofNat n), rest) => .ok (n, rest)
      | .ok (_, rest) => failBefore .unexpectedShape rest
    else refuse (c :: rest)
  | [] => failAt .endInValue []

/-- A value, or `null` for none. -/
def optional (decoder : Decoder α) : Decoder (Option α) := fun depth text =>
  match skipSpace text with
  | 'n' :: rest => (readWord "ull".toList rest).map fun (_, rest) => (none, rest)
  | text => decoder.map some depth text

def list (decoder : Decoder α) : Decoder (List α) := fun depth text =>
  match skipSpace text with
  | '[' :: rest =>
    if depth ≤ 1 then failAt .tooDeep ('[' :: rest) else readArray (decoder (depth - 1)) rest
  | text => refuse text

/-- A value of any kind, of which the given function makes something else if it has the shape. -/
def ofValue (f : Json → Option α) : Decoder α := fun depth text =>
  match readValue depth text with
  | .error fault => .error fault
  | .ok (value, rest) =>
    match f value with
    | some result => .ok (result, rest)
    | none => failBefore .unexpectedShape rest

/-- One of several names, as a string or as the key of an object with the value `null`. -/
def choice (names : List (String × α)) : Decoder α := fun depth text =>
  let name (text : List Char) : Scan α :=
    match string depth text with
    | .error fault => .error fault
    | .ok (s, rest) =>
      match names.lookup s with
      | some value => .ok (value, rest)
      | none => failBefore .unexpectedShape rest
  match skipSpace text with
  | [] => failAt .endInValue []
  | '"' :: rest => name ('"' :: rest)
  | '\x7b' :: rest =>
    if depth ≤ 1 then failAt .tooDeep ('\x7b' :: rest)
    else
      match name rest with
      | .error fault => .error fault
      | .ok (value, rest) =>
        match readColon rest with
        | .error fault => .error fault
        | .ok ((), rest) =>
          match skipSpace rest with
          | 'n' :: rest =>
            match readWord "ull".toList rest with
            | .error fault => .error fault
            | .ok ((), rest) =>
              match skipSpace rest with
              | '\x7d' :: rest => .ok (value, rest)
              | [] => failAt .endInObject []
              | rest => failAt .expectedValue rest
          | rest => refuse rest
  | rest => failAt .expectedValue rest

end Decoder

/-! ## Records -/

/-- How a record is read field by field into a draft. -/
structure RecordReader (σ α : Type) where
  /-- The keys of the fields in their order. -/
  fields : List String
  blank : σ
  /-- Whether a field has been read already. -/
  isFilled : σ → String → Bool
  /-- Reads the value of a field. -/
  fill : σ → String → Decoder σ
  /-- The record, unless a field is missing that must not be. -/
  complete : σ → Option α
  /-- Whether an array may end before it has all fields. -/
  mayEndEarly : Bool

namespace RecordReader

variable {σ α : Type}

/-- Reads the member of a key.  A key that is no field's is passed over; a second member of a field
is refused before its value is looked at. -/
def member (reader : RecordReader σ α) (depth : Nat) (draft : σ) (key : String)
    (text : List Char) : Scan σ :=
  if reader.fields.contains key then
    if reader.isFilled draft key then failBefore .unexpectedShape text
    else
      match readColon text with
      | .error fault => .error fault
      | .ok ((), text) => reader.fill draft key depth text
  else
    match readColon text with
    | .error fault => .error fault
    | .ok ((), text) => (skipValue (text.length + 1) text).map fun (_, rest) => (draft, rest)

/-- Ends a record. -/
def finish (reader : RecordReader σ α) (draft : σ) (rest : List Char) : Scan α :=
  match reader.complete draft with
  | some record => .ok (record, rest)
  | none => failBefore .unexpectedShape rest

/-- Ends a record that is an array at its closing bracket, with fields left to read. -/
def finishEarly (reader : RecordReader σ α) (draft : σ) (rest : List Char) : Scan α :=
  if reader.mayEndEarly then reader.finish draft rest else failBefore .unexpectedShape rest

/-- Reads the closing bracket after the last field. -/
def close (reader : RecordReader σ α) (draft : σ) (text : List Char) : Scan α :=
  match reader.complete draft with
  | none => failBefore .unexpectedShape text
  | some record =>
    match skipSpace text with
    | ']' :: rest => .ok (record, rest)
    | [] => failAt .endInList []
    | rest => failAt .trailingCharacters rest

/-- Reads the values of the given fields from an array, the next value starting at the text. -/
def readFields (reader : RecordReader σ α) (depth : Nat) :
    List String → σ → List Char → Scan α
  | [], draft, text => reader.close draft text
  | key :: keys, draft, text =>
    match reader.fill draft key depth text with
    | .error fault => .error fault
    | .ok (draft, rest) =>
      if keys.isEmpty then reader.close draft rest
      else
        match skipSpace rest with
        | [] => failAt .endInList []
        | ']' :: rest => reader.finishEarly draft rest
        | ',' :: rest =>
          match skipSpace rest with
          | [] => failAt .endInValue []
          | ']' :: rest => failAt .trailingComma (']' :: rest)
          | rest => reader.readFields depth keys draft rest
        | rest => failAt .expectedListSeparator rest

/-- Reads a record from an object, or from an array of its fields. -/
def decoder (reader : RecordReader σ α) : Decoder α := fun depth text =>
  match skipSpace text with
  | '\x7b' :: rest =>
    if depth ≤ 1 then failAt .tooDeep ('\x7b' :: rest)
    else
      match readObject readString (reader.member (depth - 1)) reader.blank rest with
      | .error fault => .error fault
      | .ok (draft, rest) => reader.finish draft rest
  | '[' :: rest =>
    if depth ≤ 1 then failAt .tooDeep ('[' :: rest)
    else
      match skipSpace rest with
      | [] => failAt .endInList []
      | ']' :: rest => reader.finishEarly reader.blank rest
      | rest => reader.readFields (depth - 1) reader.fields reader.blank rest
  | text => Decoder.refuse text

end RecordReader

/-- Reads a text of a known shape that holds nothing else. -/
def decode {α : Type} (decoder : Decoder α) (text : String) : Except Category α :=
  match readWholeText (decoder depthLimit) text.toList with
  | .ok value => .ok value
  | .error fault => .error fault.cause.category

end WordFields.Json
