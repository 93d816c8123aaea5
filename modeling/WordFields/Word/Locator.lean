import WordFields.Word.View

/-!
# Locating the marks of a field

The marks of a field and its instruction stand in runs that are siblings.  From an instruction the
first mark is searched backward, starting in the instruction's own run, and the others forward,
starting in the run after.  Among siblings only elements are looked into.
-/

namespace WordFields

/-- The three marks of one field. -/
structure FieldTriad where
  beginning : NodeId
  separator : NodeId
  ending : NodeId
  deriving DecidableEq, Repr

namespace Document

/-- The first mark of a kind below a node. -/
def markIn? (d : Document) (mark : FieldMark) (container : NodeId) : Option NodeId :=
  (d.wordDescendants container "fldChar").find? fun id => d.fieldMark? id == some mark

/-- The nearest mark of a kind at or before a node: in the element that holds the node, or in the
nearest element before that one which has such a mark. -/
def locatePrevious? (d : Document) (id : NodeId) (mark : FieldMark) : Option NodeId :=
  match d.parent id with
  | some container =>
    (container :: d.precedingElements container).findSome? (d.markIn? mark)
  | none => none

/-- The nearest mark of a kind after a node: in the nearest element after the one that holds the
node which has such a mark. -/
def locateNext? (d : Document) (id : NodeId) (mark : FieldMark) : Option NodeId :=
  match d.parent id with
  | some container => (d.followingElements container).findSome? (d.markIn? mark)
  | none => none

/-- The marks of the field of an instruction, or the first kind of mark that is missing. -/
def locateTriad (d : Document) (instruction : NodeId) : Except FieldMark FieldTriad :=
  match d.locatePrevious? instruction .beginning with
  | none => .error .beginning
  | some beginning =>
    match d.locateNext? instruction .separator with
    | none => .error .separator
    | some separator =>
      match d.locateNext? separator .ending with
      | none => .error .ending
      | some ending => .ok ⟨beginning, separator, ending⟩

/-- The element that shows a field's result: the first text element in the siblings after the
separator, up to the one that holds the ending mark. -/
def resultText? (d : Document) (triad : FieldTriad) : Option NodeId :=
  match d.parent triad.separator with
  | some container =>
    ((d.followingElements container).takeWhile fun n => some n != d.parent triad.ending).findSome?
      fun n => d.firstWordDescendant? n "t"
  | none => none

end Document

end WordFields
