import WordFields.Text.Search

/-!
# Branch markers in text

The branches of an IF field are delimited by two markers in the document's text.  Cutting a text at
its markers gives pieces in which texts, possibly empty ones, and markers take turns; put together
again they are the whole text.
-/

namespace WordFields

open Text

inductive Marker where
  /-- Separates the true branch from the false branch. -/
  | elseMarker
  /-- Closes the field. -/
  | endMarker
  deriving DecidableEq, Repr

namespace Marker

def spelling : Marker → List Char
  | .elseMarker => "%else%".toList
  | .endMarker => "%end%".toList

/-- The marker at the start of a text, and the text after it. -/
def atStart? (text : List Char) : Option (Marker × List Char) :=
  match after? elseMarker.spelling text with
  | some rest => some (.elseMarker, rest)
  | none => (after? endMarker.spelling text).map fun rest => (.endMarker, rest)

/-- The text before the first marker of a text, that marker, and the text after it. -/
def cut? : List Char → Option (List Char × Marker × List Char)
  | [] => none
  | c :: text =>
    match atStart? (c :: text) with
    | some (marker, rest) => some ([], marker, rest)
    | none => (cut? text).map fun (before, marker, rest) => (c :: before, marker, rest)

/-- Whether a text has a marker. -/
def occursIn (text : List Char) : Bool :=
  (cut? text).isSome

end Marker

inductive Piece where
  | text (text : List Char)
  | marker (marker : Marker)
  deriving DecidableEq, Repr

namespace Piece

/-- The pieces of a text; each marker takes a character at least, so `steps` need not exceed the
length of the text. -/
def cutFrom : Nat → List Char → List Piece
  | 0, rest => [.text rest]
  | steps + 1, rest =>
    match Marker.cut? rest with
    | some (before, found, after) => .text before :: .marker found :: cutFrom steps after
    | none => [.text rest]

/-- The pieces of a text. -/
def ofText (text : List Char) : List Piece :=
  cutFrom text.length text

end Piece

end WordFields
