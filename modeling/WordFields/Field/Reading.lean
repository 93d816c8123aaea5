import WordFields.Field.Conditional
import WordFields.Field.Marker
import WordFields.Options

/-!
# Reading IF fields

An IF field is read from the sequence of runs at the run with its first mark.  After the field's own
runs the content is read run by run.  A run that opens another IF field hands over to the reading of
that field, which takes the runs up to its own closing marker, so an inner marker never acts on the
outer field.  A run with markers is read piece by piece; one run can end a branch, begin another and
close the field.

`ifSpans` reads all fields that are not inside others.  A field that cannot be read is reported and
passed over by one run only, so the fields inside it are read in their turn.
-/

namespace WordFields

open Text

namespace Document

/-! ## Single runs -/

/-- The text nodes directly inside the text elements of a run, with their texts. -/
def runTexts (d : Document) (run : NodeId) : List (NodeId × String) :=
  ((d.wordDescendants run "t").flatMap d.children).filterMap fun id =>
    match d.kind id with
    | .text value => some (id, value)
    | _ => none

/-- Whether a run has a marker in its text. -/
def hasMarker (d : Document) (run : NodeId) : Bool :=
  (d.runTexts run).any fun (_, text) => Marker.occursIn text.toList

/-- Whether an IF field starts at an index of the runs: a first mark there, and the instruction of
an IF field in the next run. -/
def opensIf (d : Document) (runs : List NodeId) (index : Nat) : Bool :=
  match runs[index]?, runs[index + 1]? with
  | some run, some next =>
    d.runMark? run == some .beginning &&
      (d.runInstruction? next).any fun id => Instruction.isConditional (d.textContent id).toList
  | _, _ => false

/-! ## The field itself -/

/-- What is known of a field before its content. -/
structure IfHeader where
  condition : Condition
  instruction : String
  /-- The index of the run with the field's last mark. -/
  codeEnd : Nat
  deriving DecidableEq, Repr

/-- The instruction of the field at an index, and the node from which its marks are searched.
Without an instruction that is the run itself. -/
def instructionAt (d : Document) (runs : List NodeId) (index : Nat) : NodeId × String :=
  match (runs[index + 1]?).bind d.runInstruction? with
  | some id => (id, d.textContent id)
  | none => (runs[index]?.getD root, "")

/-- The index of the run that holds a mark, among the runs after the instruction. -/
def codeEnd? (d : Document) (runs : List NodeId) (index : Nat) (mark : NodeId) : Option Nat :=
  (d.enclosingRun? mark).bind fun run =>
    ((runs.drop (index + 2)).idxOf? run).map (· + index + 2)

/-- Reads the instruction and the marks of the field at an index. -/
def readHeader (d : Document) (runs : List NodeId) (index : Nat) : Except IfProblem IfHeader :=
  let (node, instruction) := d.instructionAt runs index
  let problem (fault : IfFault) : Except IfProblem IfHeader := .error ⟨fault, index, instruction⟩
  match Instruction.parse instruction.toList with
  | .error fault => problem (.unparseable fault)
  | .ok (.conditional condition) =>
    match d.locateTriad node with
    | .error missing => problem (.incomplete missing)
    | .ok triad =>
      match d.codeEnd? runs index triad.ending with
      | some codeEnd => .ok ⟨condition, instruction, codeEnd⟩
      | none => problem (.incomplete .ending)
  | .ok _ => problem (.unparseable .missingLiterals)

end Document

/-! ## The content -/

/-- The content of a field as far as it has been read. -/
structure IfContent where
  /-- Whether the true branch is being read. -/
  inTrue : Bool := true
  seenElse : Bool := false
  /-- Whether the closing marker has been read. -/
  isClosed : Bool := false
  ifTrue : List BranchEntry := []
  ifFalse : List BranchEntry := []
  markerRuns : List MarkerRun := []

namespace IfContent

/-- Adds an entry to the branch that is being read. -/
def add (content : IfContent) (entry : BranchEntry) : IfContent :=
  if content.inTrue then { content with ifTrue := content.ifTrue ++ [entry] }
  else { content with ifFalse := content.ifFalse ++ [entry] }

/-- Whether a text is what a word processor shows for an IF field, blank characters aside. -/
def isPlaceholder (options : Options) (text : List Char) : Bool :=
  trim text == options.ifPlaceholder.toList

/-- Reads a run without markers. -/
def addRun (content : IfContent) (options : Options) (run : NodeId) (text : String) : IfContent :=
  if text.isEmpty || isPlaceholder options text.toList then content.add (.run run)
  else content.add (.text run text)

/-- Reads a piece of text between markers. -/
def addFragment (content : IfContent) (options : Options) (text : List Char) : IfContent :=
  if content.isClosed || allBlank text || isPlaceholder options text then content
  else content.add (.fragment (String.ofList text))

/-- The side of text that is read now. -/
def side (content : IfContent) : Side :=
  if content.isClosed then .outside else Side.ofBranch content.inTrue

/-- Reads a marker; `none` if it is an `%else%` too many.  Behind the closing marker no marker
means anything. -/
def addMarker? (content : IfContent) (options : Options) (marker : Marker) : Option IfContent :=
  if content.isClosed then some content
  else
    match marker, options.elsePolicy with
    | .endMarker, _ => some { content with isClosed := true }
    | .elseMarker, .reject =>
      if content.seenElse then none else some { content with inTrue := false, seenElse := true }
    | .elseMarker, .toggle => some { content with inTrue := !content.inTrue, seenElse := true }

/-- Reads the pieces of a run with markers; gives the sides of its texts as well. -/
def addPieces? (options : Options) : IfContent → List Piece → Option (List Side × IfContent)
  | content, [] => some ([], content)
  | content, .text text :: pieces =>
    (addPieces? options (content.addFragment options text) pieces).map
      fun (sides, after) => (content.side :: sides, after)
  | content, .marker marker :: pieces =>
    match content.addMarker? options marker with
    | some content => addPieces? options content pieces
    | none => none

/-- Reads a run with markers, given its texts; `none` if it has an `%else%` too many. -/
def addMarkerRun? (content : IfContent) (options : Options) (run : NodeId) (texts : List String) :
    Option IfContent :=
  (addPieces? options content (texts.flatMap fun text => Piece.ofText text.toList)).map
    fun (sides, after) => { after with markerRuns := after.markerRuns ++ [⟨run, sides⟩] }

end IfContent

namespace Document

/-- Reads content from the run at an index until the field is closed; gives the index of the next
run as well.  `nested` reads a field inside and `problem` reports a fault.  Each step takes a run
at least, so `steps` need not exceed the number of runs. -/
def readContent (d : Document) (options : Options) (runs : List NodeId)
    (nested : Nat → Except IfProblem IfSpan) (problem : IfFault → IfProblem) :
    Nat → Nat → IfContent → Except IfProblem (IfContent × Nat)
  | steps, index, content =>
    if content.isClosed then .ok (content, index)
    else
      match steps, runs[index]? with
      | 0, _ => .error (problem .unclosed)
      | _, none => .error (problem .unclosed)
      | steps + 1, some run =>
        if d.opensIf runs index then
          match nested index with
          | .error p => .error p
          | .ok field =>
            readContent d options runs nested problem steps field.next (content.add (.nested field))
        else if d.hasMarker run then
          match content.addMarkerRun? options run ((d.runTexts run).map Prod.snd) with
          | none => .error (problem (.repeatedElse index))
          | some content => readContent d options runs nested problem steps (index + 1) content
        else
          readContent d options runs nested problem steps (index + 1)
            (content.addRun options run (d.runText run))

/-- Reads the field at an index.  A field inside another starts at a later run, so `depth` need not
exceed the number of runs. -/
def readIfWithin (d : Document) (options : Options) (runs : List NodeId) :
    Nat → Nat → Except IfProblem IfSpan
  | 0, index => .error ⟨.unclosed, index, ""⟩
  | depth + 1, index =>
    match d.readHeader runs index with
    | .error p => .error p
    | .ok header =>
      match d.readContent options runs (readIfWithin d options runs depth)
          (fun fault => ⟨fault, index, header.instruction⟩) runs.length (header.codeEnd + 1) {} with
      | .error p => .error p
      | .ok (content, next) =>
        .ok
          { condition := header.condition
            first := index
            codeRuns := (runs.drop index).take (header.codeEnd + 1 - index)
            ifTrue := content.ifTrue
            ifFalse := content.ifFalse
            markerRuns := content.markerRuns
            next }

/-- Reads the IF field whose first mark is in the run at an index. -/
def readIf (d : Document) (options : Options) (runs : List NodeId) (index : Nat) :
    Except IfProblem IfSpan :=
  d.readIfWithin options runs (runs.length + 1) index

/-! ## All fields -/

/-- Reads the fields from an index on.  A broken field inside another breaks that one too and is
met again on its own; `reported` has the runs of the fields that need not be reported any more.
Each step takes a run at least. -/
def readIfsFrom (d : Document) (options : Options) (runs : List NodeId) :
    Nat → Nat → List Nat → List IfSpan × List Diagnostic
  | 0, _, _ => ([], [])
  | steps + 1, index, reported =>
    if runs.length ≤ index then ([], [])
    else if d.opensIf runs index then
      match d.readIf options runs index with
      | .ok field =>
        let (fields, diagnostics) := readIfsFrom d options runs steps field.next reported
        (field :: fields, diagnostics)
      | .error p =>
        if reported.contains p.run then readIfsFrom d options runs steps (index + 1) reported
        else
          let (fields, diagnostics) :=
            readIfsFrom d options runs steps (index + 1) (p.run :: reported)
          (fields, p.toDiagnostic :: diagnostics)
    else readIfsFrom d options runs steps (index + 1) reported

/-- The IF fields of a document that are not inside others, in document order, and the problems
with those that cannot be read. -/
def ifSpans (d : Document) (options : Options) : List IfSpan × List Diagnostic :=
  let runs := d.runs
  d.readIfsFrom options runs (runs.length + 1) 0 []

end Document

end WordFields
