import WordFields.Diagnostic
import WordFields.Field.Description
import WordFields.Instruction.Grammar
import WordFields.Word.Locator

/-!
# IF fields in a document

An IF field has only its condition in its instruction.  The content of its branches is what follows
the field in the sequence of runs, up to a marker that closes it:

* the runs of the field itself, from its first mark to its last one;
* the true branch;
* perhaps a marker `%else%` and the false branch;
* a marker `%end%`.

This module has the data for a field that was found there: an `IfSpan` knows all runs from the
first mark to the closing marker, each in its role.
-/

namespace WordFields

/-- Where a piece of text in a run with markers belongs. -/
inductive Side where
  | ifTrue
  | ifFalse
  /-- Behind the marker that closes the field. -/
  | outside
  deriving DecidableEq, Repr

namespace Side

/-- The side of the branch that is read. -/
def ofBranch (isTrue : Bool) : Side :=
  if isTrue then .ifTrue else .ifFalse

end Side

/-- A run with markers, and the side of each piece of text between its markers, in order. -/
structure MarkerRun where
  run : NodeId
  sides : List Side
  deriving DecidableEq, Repr

mutual

/-- An IF field with the runs it spans. -/
structure IfSpan where
  condition : Condition
  /-- The index of the run with the field's first mark. -/
  first : Nat
  /-- The runs of the field itself. -/
  codeRuns : List NodeId
  ifTrue : List BranchEntry
  ifFalse : List BranchEntry
  markerRuns : List MarkerRun
  /-- The index of the run after the one with the closing marker. -/
  next : Nat

/-- What a branch consists of. -/
inductive BranchEntry where
  /-- A run with text. -/
  | text (run : NodeId) (text : String)
  /-- A run that adds nothing to the content: one without text, or with the result that a word
  processor shows for an IF field. -/
  | run (run : NodeId)
  | nested (field : IfSpan)
  /-- Text that shares a run with a marker. -/
  | fragment (text : String)

end

/-! ## The runs of a field -/

mutual

/-- All runs of a field: its own, those of its branches and those with markers. -/
def IfSpan.runs : IfSpan → List NodeId
  | ⟨_, _, codeRuns, ifTrue, ifFalse, markerRuns, _⟩ =>
    codeRuns ++ (entriesRuns ifTrue ++ entriesRuns ifFalse) ++ markerRuns.map MarkerRun.run

/-- The runs that belong to the entries of a branch.  A fragment has none of its own. -/
def entriesRuns : List BranchEntry → List NodeId
  | [] => []
  | entry :: rest => entry.runs ++ entriesRuns rest

def BranchEntry.runs : BranchEntry → List NodeId
  | .text run _ => [run]
  | .run run => [run]
  | .nested field => field.runs
  | .fragment _ => []

end

/-! ## The description of a field -/

mutual

def IfSpan.describe : IfSpan → IfField
  | ⟨condition, _, _, ifTrue, ifFalse, _, _⟩ =>
    { left := condition.left
      operator := condition.operator
      right := condition.right
      ifTrue := Branch.ofItems (describeEntries ifTrue)
      ifFalse := Branch.ofItems (describeEntries ifFalse) }

def describeEntries : List BranchEntry → List BranchItem
  | [] => []
  | entry :: rest => entry.describe ++ describeEntries rest

/-- The item of an entry; an entry without content has none. -/
def BranchEntry.describe : BranchEntry → List BranchItem
  | .text _ text => [.text text]
  | .run _ => []
  | .nested field => [.field field.describe]
  | .fragment text => [.text text]

end

/-! ## Problems -/

/-- Why an IF field cannot be read. -/
inductive IfFault where
  | incomplete (missing : FieldMark)
  | unparseable (fault : InstructionFault)
  /-- The document ends before the closing marker. -/
  | unclosed
  /-- There is a second `%else%`, in the run with the given index. -/
  | repeatedElse (run : Nat)
  deriving DecidableEq, Repr

namespace IfFault

def message : IfFault → String
  | .incomplete missing => s!"The IF field has no `{missing.name}` marker"
  | .unparseable fault => s!"The IF instruction could not be parsed: {fault.message}"
  | .unclosed => "The document ends before the IF field's `%end%` marker"
  | .repeatedElse _ => "The IF field has a second `%else%` marker"

end IfFault

/-- A fault with the field that has it: the index of its first run, and its instruction. -/
structure IfProblem where
  fault : IfFault
  run : Nat
  instruction : String
  deriving DecidableEq, Repr

namespace IfProblem

/-- The diagnostic of a fault, still without the parts that all have in common. -/
def template : IfFault → Diagnostic
  | .incomplete _ => { severity := .warning, title := "Incomplete IF field", code := "F-2-1" }
  | .unparseable _ =>
    { severity := .warning, title := "Unparseable IF field", code := "F-2-2"
      hints := ["IF fields must read `IF <left> <op> <right> \"%iftrue%\" \"%iffalse%\"`?"] }
  | .unclosed =>
    { severity := .warning, title := "Unclosed IF field", code := "F-2-3"
      hints := ["Add a `%end%` marker after the field's branch content?"] }
  | .repeatedElse run =>
    { severity := .warning, title := "Repeated `%else%` in IF field", code := "F-2-4"
      details := [s!"Second `%else%` found at run {run}"] }

def toDiagnostic (p : IfProblem) : Diagnostic :=
  let base := template p.fault
  let instruction := String.ofList (Text.trim p.instruction.toList)
  { base with
    problem := p.fault.message
    details := base.details ++ [s!"Instruction: `{instruction}`"]
    run := p.run }

end IfProblem

end WordFields
