import WordFields.Json.Decoder
import WordFields.Json.Printer
import WordFields.Json.Reader
import WordFields.Markup.Error

/-!
# Diagnostics

A problem with one field is no failure of the whole call but a *diagnostic*: a message with a
short title, a statement of the problem, details and hints, and the run where the field starts.
Codes name the part that reports, `F-0` for whole documents, `F-1` for merge fields and `F-2` for
IF fields.  A diagnostic has a text form, and a JSON form that leaves out what is absent.
-/

namespace WordFields

inductive Severity where
  | error
  | warning
  deriving DecidableEq, Repr

namespace Severity

/-- The word that starts the text of a diagnostic. -/
def label : Severity → String
  | .error => "Error"
  | .warning => "Warning"

/-- The name in JSON. -/
def name : Severity → String
  | .error => "error"
  | .warning => "warning"

def names : List (String × Severity) :=
  [("error", .error), ("warning", .warning)]

end Severity

structure Diagnostic where
  severity : Severity
  title : String
  code : Option String := none
  problem : Option String := none
  details : List String := []
  hints : List String := []
  /-- The index of the run where the problem was found. -/
  run : Option Nat := none
  deriving DecidableEq, Repr

namespace Diagnostic

/-- Whether a list of diagnostics has one that is more than a warning. -/
def anyError (diagnostics : List Diagnostic) : Bool :=
  diagnostics.any fun d => d.severity == .error

/-! ## Text -/

/-- The title behind the severity and, if there is one, the code. -/
def heading (d : Diagnostic) : String :=
  match d.code with
  | some code => s!"{d.severity.label} [{code}]: {d.title}\n"
  | none => s!"{d.severity.label}: {d.title}\n"

/-- The text of a diagnostic: the heading, the problem, the run, the details and the hints, each on
a line. -/
def toText (d : Diagnostic) : String :=
  Text.concat <|
    [d.heading] ++
    d.problem.toList.map (fun problem => s!"{problem}\n") ++
    d.run.toList.map (fun run => s!"ℹ At run {run}\n") ++
    d.details.map (fun detail => s!"✖ {detail}\n") ++
    d.hints.map (fun hint => s!"? {hint}\n")

/-! ## JSON -/

/-- A member for a text that may be absent. -/
def textMember (key : String) (value : Option String) : List (String × Json) :=
  value.toList.map fun text => (key, .string text)

/-- A member for a list that is left out when it is empty. -/
def listMember (key : String) (values : List String) : List (String × Json) :=
  if values.isEmpty then [] else [(key, .array (values.map .string))]

def toJson (d : Diagnostic) : Json :=
  .object <|
    textMember "code" d.code ++
    [("title", .string d.title), ("kind", .string d.severity.name)] ++
    textMember "problem" d.problem ++
    listMember "details" d.details ++
    listMember "hints" d.hints ++
    d.run.toList.map fun run => ("run_index", Json.ofNat run)

/-- A diagnostic of which not all members have been read. -/
structure Draft where
  code : Option (Option String) := none
  title : Option String := none
  severity : Option Severity := none
  problem : Option (Option String) := none
  details : Option (List String) := none
  hints : Option (List String) := none
  run : Option (Option Nat) := none

namespace Draft

def isFilled (draft : Draft) (key : String) : Bool :=
  match key with
  | "code" => draft.code.isSome
  | "title" => draft.title.isSome
  | "kind" => draft.severity.isSome
  | "problem" => draft.problem.isSome
  | "details" => draft.details.isSome
  | "hints" => draft.hints.isSome
  | "run_index" => draft.run.isSome
  | _ => false

/-- Reads the member of a key. -/
def fill (draft : Draft) (key : String) : Json.Decoder Draft :=
  open Json.Decoder in
  match key with
  | "code" => (optional string).map fun value => { draft with code := some value }
  | "title" => string.map fun value => { draft with title := some value }
  | "kind" => (choice Severity.names).map fun value => { draft with severity := some value }
  | "problem" => (optional string).map fun value => { draft with problem := some value }
  | "details" => (list string).map fun value => { draft with details := some value }
  | "hints" => (list string).map fun value => { draft with hints := some value }
  | _ => (optional natural).map fun value => { draft with run := some value }

/-- The diagnostic, if the two members are there that must be. -/
def complete (draft : Draft) : Option Diagnostic :=
  match draft.title, draft.severity with
  | some title, some severity =>
    some
      { severity, title
        code := draft.code.join
        problem := draft.problem.join
        details := draft.details.getD []
        hints := draft.hints.getD []
        run := draft.run.join }
  | _, _ => none

end Draft

/-- How a diagnostic is read from JSON.  As an array it needs all its members. -/
def reader : Json.RecordReader Draft Diagnostic where
  fields := ["code", "title", "kind", "problem", "details", "hints", "run_index"]
  blank := {}
  isFilled := Draft.isFilled
  fill := Draft.fill
  complete := Draft.complete
  mayEndEarly := false

def ofJson (text : String) : Except Json.Category Diagnostic :=
  Json.decode reader.decoder text

end Diagnostic

end WordFields
