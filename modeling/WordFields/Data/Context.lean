import WordFields.Json.Reader
import WordFields.Number.Rendering

/-!
# Data contexts

A data context is a JSON value in which conditions look values up by dotted path.  What is found
is compared by its rendering as text or as a number.  Both renderings are total: a path that leads
nowhere renders as `undefined`, an object as `[object Object]`, an array as its items with commas
between them.
-/

namespace WordFields

/-- The value that templates are evaluated against. -/
structure DataContext where
  root : Json
  deriving Repr

namespace DataContext

open Text

/-- The context of a document that is given no data. -/
def empty : DataContext :=
  ⟨.object []⟩

def parse (text : String) : Except Json.Error DataContext :=
  (Json.parse text).map DataContext.mk

/-! ## Paths -/

/-- One step of a path: the member of an object, or the item of an array at a decimal index. -/
def step (value : Json) (segment : List Char) : Option Json :=
  match value with
  | .object members => Json.member? members (String.ofList segment)
  | .array items => (Numeral.word? 10 segment).bind fun index => items[index]?
  | _ => none

/-- Follows the segments of a path from a value. -/
def follow (value : Json) : List (List Char) → Option Json
  | [] => some value
  | segment :: rest =>
    match step value segment with
    | some next => follow next rest
    | none => none

/-- The value at a dotted path.  A path has at least one segment, which may be empty. -/
def get? (context : DataContext) (path : String) : Option Json :=
  follow context.root (splitAt '.' path.toList)

end DataContext

/-! ## Renderings -/

namespace Json

mutual

/-- The text of a value that is present. -/
def render : Json → List Char
  | .null => "null".toList
  | .bool value => if value then "true".toList else "false".toList
  | .number (.integer n) => integerText n
  | .number (.double d) => d.text
  | .string value => value.toList
  | .array items => List.intercalate [','] (renderItems items)
  | .object _ => "[object Object]".toList

/-- The texts of the items of an array, in which `null` leaves its place empty. -/
def renderItems : List Json → List (List Char)
  | [] => []
  | .null :: rest => [] :: renderItems rest
  | value :: rest => render value :: renderItems rest

end

/-- The rendering of a value as text. -/
def textOf : Option Json → List Char
  | none => "undefined".toList
  | some value => value.render

/-- The rendering of a value as a number.  An array is read as the number its text denotes. -/
def numberOf : Option Json → Double
  | none => .nan
  | some .null => Double.zero false
  | some (.bool value) => Double.ofInt (if value then 1 else 0)
  | some (.number n) => n.toDouble
  | some (.string value) => Numeral.toDouble value.toList
  | some (.array items) => Numeral.toDouble (render (.array items))
  | some (.object _) => .nan

end Json

end WordFields
