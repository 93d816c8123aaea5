import WordFields.Diagnostic
import WordFields.Instruction.Grammar
import WordFields.Options
import WordFields.Tree.Edit
import WordFields.Word.Locator

/-!
# Substituting merge fields

A merge field names a path, and a word processor shows some text as its result.  Substitution puts
a placeholder in the place of that text, records the path in an attribute of the text element and,
if wanted, in a comment before it.  An element that already records the path is left alone, so the
pass can be repeated.
-/

namespace WordFields

/-- What a pass over the fields of one kind gives: the document after it, the number of fields it
was done for, and the problems with others. -/
structure PassResult where
  document : Document
  count : Nat
  diagnostics : List Diagnostic

/-- The attribute that records the path of a substituted text element. -/
def mergeAttribute : String := "data-merge-field"

/-- A merge field in a document: its instruction element, and the path if the instruction has
one. -/
structure MergeField where
  instruction : NodeId
  path : Option String
  deriving DecidableEq, Repr

/-- Text with a space between any two hyphens that follow each other, and after one at the end. -/
def spaceHyphens : List Char → List Char
  | [] => []
  | [c] => if c = '-' then ['-', ' '] else [c]
  | c :: d :: text =>
    if c = '-' ∧ d = '-' then '-' :: ' ' :: spaceHyphens (d :: text)
    else c :: spaceHyphens (d :: text)

/-- The comment that records a path.  A comment cannot hold two hyphens in a row or end with
one. -/
def mergeComment (path : String) : String :=
  String.ofList (spaceHyphens ("MERGEFIELD:".toList ++ path.toList))

/-- A substituted text element, read back from a document. -/
structure SubstitutionRecord where
  element : NodeId
  path : String
  value : String
  deriving DecidableEq, Repr

namespace Document

/-- The merge fields of a document in document order. -/
def mergeFields (d : Document) : List MergeField :=
  d.instructions.filterMap fun id =>
    let text := (d.textContent id).toList
    if Instruction.isMerge text then
      match Instruction.parse text with
      | .ok (.merge path) => some ⟨id, some path⟩
      | _ => some ⟨id, none⟩
    else none

/-- The paths of the merge fields that name one. -/
def mergePaths (d : Document) : List String :=
  d.mergeFields.filterMap MergeField.path

/-- The text elements that record a path, in document order. -/
def substitutions (d : Document) : List SubstitutionRecord :=
  d.textElements.filterMap fun id =>
    (d.attribute? id mergeAttribute).map fun path => ⟨id, path, d.textContent id⟩

/-! ## Problems -/

def namelessMerge (instruction : String) : Diagnostic :=
  { severity := .warning, title := "Incomplete merge field", code := "F-1-1"
    problem := "The merge field does not name a data field"
    details := [s!"Instruction: `{instruction}`"] }

def incompleteMerge (path : String) (missing : FieldMark) : Diagnostic :=
  { severity := .warning, title := "Incomplete merge field", code := "F-1-1"
    problem := s!"The merge field has no `{missing.name}` marker"
    details := [s!"Field: `{path}`"]
    hints := ["Re-insert the field in the word processor?"] }

def emptyMerge (path : String) : Diagnostic :=
  { severity := .warning, title := "Merge field without result text", code := "F-1-2"
    problem := "No text was found between the field's `separate` and `end` markers"
    details := [s!"Field: `{path}`"] }

/-! ## The pass -/

/-- What there is to do for a merge field. -/
inductive MergeAction where
  | report (diagnostic : Diagnostic)
  /-- The text element already records the path. -/
  | keep
  | substitute (element : NodeId) (path : String)

def mergeAction (d : Document) (field : MergeField) : MergeAction :=
  match field.path with
  | none =>
    .report (namelessMerge (String.ofList (Text.trim (d.textContent field.instruction).toList)))
  | some path =>
    match d.locateTriad field.instruction with
    | .error missing => .report (incompleteMerge path missing)
    | .ok triad =>
      match d.resultText? triad with
      | none => .report (emptyMerge path)
      | some element =>
        if d.attribute? element mergeAttribute = some path then .keep
        else .substitute element path

/-- Puts the placeholder into a text element and records the path. -/
def substitute (d : Document) (options : Options) (element : NodeId) (path : String) : Document :=
  let d := (d.setTextContent element options.placeholder).setAttribute element mergeAttribute path
  if options.mergeComments then
    let (comment, d) := d.create (.comment (mergeComment path))
    (d.insertBefore comment element).2
  else d

/-- The result of the pass so far, with one more field done.  `runs` are those at its start. -/
def mergeStep (options : Options) (runs : List NodeId) (result : PassResult)
    (field : MergeField) : PassResult :=
  let d := result.document
  match d.mergeAction field with
  | .report diagnostic =>
    let run := (d.enclosingRun? field.instruction).bind runs.idxOf?
    { result with diagnostics := result.diagnostics ++ [{ diagnostic with run }] }
  | .keep => result
  | .substitute element path =>
    { result with document := d.substitute options element path, count := result.count + 1 }

/-- Substitutes the merge fields of a document in order. -/
def processMergeFields (d : Document) (options : Options) : PassResult :=
  d.mergeFields.foldl (mergeStep options d.runs) ⟨d, 0, []⟩

end Document

end WordFields
