import WordFields.Json.Value
import WordFields.Number.Rendering

/-!
# Writing JSON

A value is written either without any space, or with each item and member on a line of its own,
indented by two spaces for each level.  Both forms differ only in the spaces between the parts.
-/

namespace WordFields.Json

/-- The digits of a control character's code, four of them. -/
def fourDigits (n : Nat) : List Char :=
  let digits := Nat.toDigits 16 n
  List.replicate (4 - digits.length) '0' ++ digits

/-- A character inside a string.  The two characters that structure the string are escaped, and
so are the control characters, with a letter where there is one. -/
def escapeChar (c : Char) : List Char :=
  if c = '"' then ['\\', '"']
  else if c = '\\' then ['\\', '\\']
  else if c = '\x08' then ['\\', 'b']
  else if c = '\x0c' then ['\\', 'f']
  else if c = '\n' then ['\\', 'n']
  else if c = '\r' then ['\\', 'r']
  else if c = '\t' then ['\\', 't']
  else if c.toNat < 0x20 then '\\' :: 'u' :: fourDigits c.toNat
  else [c]

def quote (value : String) : List Char :=
  '"' :: value.toList.flatMap escapeChar ++ ['"']

def numberText : JsonNumber → List Char
  | .integer n => integerText n
  | .double d => d.text

/-- What comes between the parts of a value: nothing, or a line break and the indentation of a
level. -/
inductive Layout where
  | compact
  | indented

namespace Layout

def lineBreak : Layout → Nat → List Char
  | .compact, _ => []
  | .indented, level => '\n' :: List.replicate (2 * level) ' '

/-- The separator of a key and its value. -/
def colon : Layout → List Char
  | .compact => [':']
  | .indented => [':', ' ']

end Layout

/-- The brackets of an array or object around its parts, which start at the given level. -/
def enclose (layout : Layout) (level : Nat) (left right : Char) (parts : List (List Char)) :
    List Char :=
  if parts.isEmpty then [left, right]
  else
    let separated := parts.intersperse (',' :: layout.lineBreak (level + 1))
    left :: layout.lineBreak (level + 1) ++ separated.flatten ++ layout.lineBreak level ++ [right]

mutual

/-- The text of a value at a level of indentation. -/
def valueText (layout : Layout) : Nat → Json → List Char
  | _, .null => "null".toList
  | _, .bool value => if value then "true".toList else "false".toList
  | _, .number value => numberText value
  | _, .string value => quote value
  | level, .array items => enclose layout level '[' ']' (itemTexts layout (level + 1) items)
  | level, .object members =>
    enclose layout level '\x7b' '\x7d' (memberTexts layout (level + 1) members)

def itemTexts (layout : Layout) (level : Nat) : List Json → List (List Char)
  | [] => []
  | value :: rest => valueText layout level value :: itemTexts layout level rest

def memberTexts (layout : Layout) (level : Nat) : List (String × Json) → List (List Char)
  | [] => []
  | (key, value) :: rest =>
    (quote key ++ layout.colon ++ valueText layout level value) :: memberTexts layout level rest

end

def print (layout : Layout) (value : Json) : String :=
  String.ofList (valueText layout 0 value)

/-- The text of a value without spaces. -/
def compress (value : Json) : String :=
  value.print .compact

/-- The text of a value over several lines. -/
def pretty (value : Json) : String :=
  value.print .indented

end WordFields.Json
