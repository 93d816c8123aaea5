/-!
# Searching a text

`after?` recognises a pattern at the start of a text and `cut?` finds its first occurrence.
Both give the remaining text back, so a caller never handles an index.
-/

namespace WordFields.Text

/-- What follows `pattern` in a text that begins with it. -/
def after? : List Char → List Char → Option (List Char)
  | [], text => some text
  | _ :: _, [] => none
  | p :: pattern, c :: text => if p = c then after? pattern text else none

def startsWith (pattern text : List Char) : Bool :=
  (after? pattern text).isSome

/-- The parts of a text before and after the first occurrence of `pattern`. -/
def cut? (pattern : List Char) : List Char → Option (List Char × List Char)
  | [] => (after? pattern []).map fun rest => ([], rest)
  | c :: text =>
    match after? pattern (c :: text) with
    | some rest => some ([], rest)
    | none => (cut? pattern text).map fun (before, rest) => (c :: before, rest)

def contains (pattern text : List Char) : Bool :=
  (cut? pattern text).isSome

/-- The parts of a text between the occurrences of one character; there is always one part. -/
def splitAt (separator : Char) : List Char → List (List Char)
  | [] => [[]]
  | c :: text =>
    if c = separator then [] :: splitAt separator text
    else
      match splitAt separator text with
      | [] => [[c]]
      | part :: parts => (c :: part) :: parts

/-- Texts one after the other. -/
def concat (parts : List String) : String :=
  String.ofList (parts.flatMap String.toList)

/-- The length of a text in bytes of UTF-8, the unit of every position that is reported. -/
def byteLength : List Char → Nat
  | [] => 0
  | c :: text => c.utf8Size + byteLength text

/-- The text after its first `bytes` bytes. -/
def dropBytes : Nat → List Char → List Char
  | _, [] => []
  | bytes, c :: text => if bytes = 0 then c :: text else dropBytes (bytes - c.utf8Size) text

/-- The first `bytes` bytes of a text. -/
def takeBytes : Nat → List Char → List Char
  | _, [] => []
  | bytes, c :: text => if bytes = 0 then [] else c :: takeBytes (bytes - c.utf8Size) text

/-- The part of a text between two byte positions. -/
def slice (start stop : Nat) (text : List Char) : List Char :=
  takeBytes (stop - start) (dropBytes start text)

end WordFields.Text
