import WordFields.Data.Evaluation
import WordFields.Field.Reading
import WordFields.Field.Substitution
import WordFields.Tree.Edit

/-!
# Pruning IF fields

Applying an IF field keeps the branch that its condition selects.  The runs of the other branch are
taken out of the document, fields inside the kept branch are applied in their turn, and from the
runs with markers the markers and the text of the other branch are deleted.  The runs of the field
itself stay.
-/

namespace WordFields

namespace Document

/-! ## Runs with markers -/

/-- The texts of pieces that stay when one branch is kept, put together, and the sides left over.
Sides are used up one for each text; where none is left a text is outside. -/
def keepPieces (keep : Side) : List Piece → List Side → List Char × List Side
  | [], sides => ([], sides)
  | .marker _ :: pieces, sides => keepPieces keep pieces sides
  | .text text :: pieces, sides =>
    let side := sides.headD .outside
    let (kept, rest) := keepPieces keep pieces sides.tail
    (if side = keep ∨ side = .outside then text ++ kept else kept, rest)

/-- Replaces the values of text nodes one after the other by what is kept of them. -/
def replaceTexts (keep : Side) : Document → List (NodeId × String) → List Side → Document
  | d, [], _ => d
  | d, (id, text) :: texts, sides =>
    let (kept, rest) := keepPieces keep (Piece.ofText text.toList) sides
    replaceTexts keep (d.setValue id (String.ofList kept)).2 texts rest

/-- Deletes the markers of a run and the text of the branch that is not kept. -/
def cleanMarkerRun (d : Document) (keep : Side) (marker : MarkerRun) : Document :=
  replaceTexts keep d (d.runTexts marker.run) marker.sides

/-- Detaches nodes one after the other. -/
def removeAll (d : Document) (ids : List NodeId) : Document :=
  ids.foldl remove d

/-! ## Fields -/

mutual

/-- Applies a field. -/
def applyIf (context : DataContext) (d : Document) : IfSpan → Document
  | ⟨condition, _, _, ifTrue, ifFalse, markerRuns, _⟩ =>
    if condition.holds context then
      markerRuns.foldl (fun d marker => d.cleanMarkerRun .ifTrue marker)
        (applyNested context (d.removeAll (entriesRuns ifFalse)) ifTrue)
    else
      markerRuns.foldl (fun d marker => d.cleanMarkerRun .ifFalse marker)
        (applyNested context (d.removeAll (entriesRuns ifTrue)) ifFalse)

/-- Applies the fields among the entries of a branch. -/
def applyNested (context : DataContext) (d : Document) : List BranchEntry → Document
  | [] => d
  | entry :: rest => applyNested context (applyEntry context d entry) rest

def applyEntry (context : DataContext) (d : Document) : BranchEntry → Document
  | .nested field => applyIf context d field
  | .text _ _ => d
  | .run _ => d
  | .fragment _ => d

end

/-- Reads all IF fields of a document, then applies them in order. -/
def processIfFields (d : Document) (context : DataContext) (options : Options) : PassResult :=
  let (fields, diagnostics) := d.ifSpans options
  ⟨fields.foldl (applyIf context) d, fields.length, diagnostics⟩

end Document

end WordFields
