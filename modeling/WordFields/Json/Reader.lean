import WordFields.Json.Number
import WordFields.Json.Scanner

/-!
# Reading JSON values

`readValue` reads a value of any kind, arrays and objects within each other down to a limit, and
`parse` reads a text that holds one value and nothing else.  `skipValue` passes over a value that
nobody asks for: it holds the text to the grammar but not to the limits on depth and numbers.
-/

namespace WordFields.Json

open Text

/-- The number of brackets that may be open, plus one. -/
def depthLimit : Nat := 128

/-- Reads a value inside of which fewer than `depth` brackets may be open. -/
def readValue : Nat → List Char → Scan Json
  | 0, text => failAt .tooDeep text
  | depth + 1, text =>
    match skipSpace text with
    | [] => failAt .endInValue []
    | c :: rest =>
      if c = '"' then (readString rest).map fun (s, rest) => (.string s, rest)
      else if c = '[' then
        if depth = 0 then failAt .tooDeep (c :: rest)
        else (readArray (readValue depth) rest).map fun (items, rest) => (.array items, rest)
      else if c = '\x7b' then
        if depth = 0 then failAt .tooDeep (c :: rest)
        else
          let member (members : List (String × Json)) (key : String) (text : List Char) :
              Scan (List (String × Json)) :=
            match readColon text with
            | .error fault => .error fault
            | .ok ((), text) =>
              (readValue depth text).map fun (value, rest) => (members ++ [(key, value)], rest)
          (readObject readString member [] rest).map fun (members, rest) => (.object members, rest)
      else if c = 'n' then (readWord "ull".toList rest).map fun (_, rest) => (.null, rest)
      else if c = 't' then (readWord "rue".toList rest).map fun (_, rest) => (.bool true, rest)
      else if c = 'f' then (readWord "alse".toList rest).map fun (_, rest) => (.bool false, rest)
      else if c = '-' || Numeral.isDigit c then
        (readNumber (c :: rest)).map fun (n, rest) => (.number n, rest)
      else failAt .expectedValue (c :: rest)

/-- Passes over a value.  Each bracket takes a character, so `steps` need not exceed the length of
the text. -/
def skipValue : Nat → List Char → Scan Unit
  | 0, text => failAt .tooDeep text
  | steps + 1, text =>
    match skipSpace text with
    | [] => failAt .endInValue []
    | c :: rest =>
      if c = '"' then (skipString rest).map fun (_, rest) => ((), rest)
      else if c = '[' then (readArray (skipValue steps) rest).map fun (_, rest) => ((), rest)
      else if c = '\x7b' then
        let member (_ : Unit) (_ : String) (text : List Char) : Scan Unit :=
          match readColon text with
          | .error fault => .error fault
          | .ok ((), text) => skipValue steps text
        readObject skipString member () rest
      else if c = 'n' then readWord "ull".toList rest
      else if c = 't' then readWord "rue".toList rest
      else if c = 'f' then readWord "alse".toList rest
      else if c = '-' || Numeral.isDigit c then skipNumber (c :: rest)
      else failAt .expectedValue (c :: rest)

/-- What a scanner reads from a text that holds nothing else. -/
def readWholeText {α : Type} (scan : List Char → Scan α) (text : List Char) : Except Fault α :=
  match scan text with
  | .error fault => .error fault
  | .ok (value, rest) =>
    match skipSpace rest with
    | [] => .ok value
    | rest => failAt .trailingCharacters rest

/-- The value that a text holds. -/
def parseChars (text : List Char) : Except Error Json :=
  match readWholeText (readValue depthLimit) text with
  | .ok value => .ok value
  | .error fault => .error (fault.inText text)

def parse (text : String) : Except Error Json :=
  parseChars text.toList

end WordFields.Json
