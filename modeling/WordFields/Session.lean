import WordFields.Field.Pruning
import WordFields.Markup.Builder
import WordFields.Word.Simplification

/-!
# Sessions and whole documents

A *session* holds one document with its options and collects the diagnostics of everything that is
done with it.  The functions on whole texts open a session, do one thing and give the result.  They
fail only if the markup is no document or the data is no JSON; problems with single fields are
diagnostics.
-/

namespace WordFields

/-! ## Failures -/

inductive Failure where
  | markup (error : Markup.Error)
  | data (error : Json.Error)
  deriving DecidableEq, Repr

namespace Failure

/-- The message of the error behind a failure. -/
def cause : Failure → String
  | .markup e => e.message
  | .data e => e.message

def message : Failure → String
  | .markup e => s!"Invalid document markup: {e.message}"
  | .data e => s!"Invalid data context: {e.message}"

def toDiagnostic : Failure → Diagnostic
  | .markup e =>
    { severity := .error, title := "Invalid Document Markup", code := "F-0-1"
      problem := e.message
      details := e.position?.toList.map fun position => s!"Error at byte offset {position}"
      hints := ["Is the input the `word/document.xml` part of the package?"] }
  | .data e =>
    { severity := .error, title := "Invalid Data Context", code := "F-0-2"
      problem := e.message
      details := [s!"Error at line {e.line}, column {e.column}"] }

end Failure

/-! ## Descriptions -/

/-- The fields of a document, and the problems with IF fields that cannot be read and are left
out. -/
def Document.extractFields (d : Document) (options : Options) : FieldList × List Diagnostic :=
  let (spans, diagnostics) := d.ifSpans options
  (⟨d.mergePaths, spans.map IfSpan.describe⟩, diagnostics)

/-! ## Sessions -/

structure Session where
  document : Document
  options : Options
  diagnostics : List Diagnostic

namespace Session

/-- Opens a session on the document that a text describes. -/
def start (xml : String) (options : Options) : Except Failure Session :=
  match Markup.parse xml with
  | .ok document => .ok ⟨document, options, []⟩
  | .error e => .error (.markup e)

/-- The session after a pass. -/
def after (s : Session) (result : PassResult) : Session :=
  { s with document := result.document, diagnostics := s.diagnostics ++ result.diagnostics }

/-- Substitutes all merge fields; gives their number. -/
def merge (s : Session) : Nat × Session :=
  let result := s.document.processMergeFields s.options
  (result.count, s.after result)

/-- Applies all IF fields; gives the number of those that are not inside others. -/
def prune (s : Session) (context : DataContext) : Nat × Session :=
  let result := s.document.processIfFields context s.options
  (result.count, s.after result)

/-- Describes the fields. -/
def extract (s : Session) : FieldList × Session :=
  let (fields, diagnostics) := s.document.extractFields s.options
  (fields, { s with diagnostics := s.diagnostics ++ diagnostics })

/-- Simplifies the document; gives its markup without blank lines. -/
def simplify (s : Session) : String × Session :=
  let document := s.document.simplify
  (document.denseMarkup, { s with document })

end Session

/-! ## Whole documents -/

/-- The markup of a document after processing, and what there is to report. -/
structure Processed where
  xml : String
  diagnostics : List Diagnostic
  deriving DecidableEq, Repr

/-- Runs the passes that the options enable, merge fields first. -/
def processDocument (xml : String) (context : DataContext) (options : Options) :
    Except Failure Processed :=
  match Session.start xml options with
  | .error e => .error e
  | .ok s =>
    let s := if options.mergeFields then s.merge.2 else s
    let s := if options.ifFields then (s.prune context).2 else s
    .ok ⟨s.document.toMarkup, s.diagnostics⟩

/-- The context that data given as JSON text makes; the empty one if there is none. -/
def readContext (data : Option String) : Except Failure DataContext :=
  match data with
  | none => .ok DataContext.empty
  | some text =>
    match DataContext.parse text with
    | .ok context => .ok context
    | .error e => .error (.data e)

/-- Processes a document with data given as JSON text.  The data is read before the markup. -/
def processWithJson (xml : String) (data : Option String) (options : Options) :
    Except Failure Processed :=
  match readContext data with
  | .error e => .error e
  | .ok context => processDocument xml context options

/-- Describes the fields of a document, under the default options. -/
def extractFields (xml : String) : Except Failure (FieldList × List Diagnostic) :=
  (Session.start xml {}).map fun s =>
    let (fields, s) := s.extract
    (fields, s.diagnostics)

/-- Simplifies a document and writes it without blank lines. -/
def simplifyMarkup (xml : String) : Except Failure String :=
  (Session.start xml {}).map fun s => s.simplify.1

end WordFields
