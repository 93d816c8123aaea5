import WordFields.CommandLine.Request
import WordFields.CommandLine.World
import WordFields.Session

/-!
# Executing a request

A request is executed against the files and the standard input that a `World` shows, and the
`Outcome` has all there is to be seen of it: the exit code, both output streams and the files to
write.  Nothing is written and no standard output is made unless everything before has succeeded.
-/

namespace WordFields.CommandLine

open Text

/-! ## Outcomes -/

structure Outcome where
  code : Nat
  stdout : String
  /-- The standard error stream; absent where its wording is not settled. -/
  stderr : Option String
  /-- The files to write, as paths with contents. -/
  written : List (String × String)
  deriving DecidableEq, Repr

/-- The outcome of a command line that makes no request. -/
def Outcome.usage : Outcome :=
  ⟨2, "", none, []⟩

/-- The outcome behind lines that have been logged before. -/
def Outcome.behind (outcome : Outcome) (lines : String) : Outcome :=
  { outcome with stderr := outcome.stderr.map (lines ++ ·) }

/-- A text as the cause of an error: further lines are indented like the first. -/
def indentLines (indent : Nat) (text : String) : List Char :=
  text.toList.flatMap fun c => if c = '\n' then '\n' :: List.replicate indent ' ' else [c]

/-- The report of an error that a command ends with: what failed, and the causes behind it, which
are numbered if there are several. -/
def errorReport (context : String) (causes : List String) : String :=
  let lines := match causes with
    | [cause] => "    ".toList ++ indentLines 4 cause ++ ['\n']
    | causes =>
      causes.zipIdx.flatMap fun (cause, n) =>
        s!"    {n}: ".toList ++ indentLines 7 cause ++ ['\n']
  s!"Error: {context}\n\nCaused by:\n" ++ String.ofList lines

/-- Why a command fails: what it was about, and the causes. -/
structure CommandFault where
  context : String
  causes : List String
  deriving DecidableEq, Repr

/-- What a command gives: the event it logs, if any, the report of diagnostics, the content it
outputs, if any, and the path that goes to instead of the standard output. -/
structure Product where
  event? : Option LogEvent
  report : String
  content : Option String
  path : Option String
  deriving DecidableEq, Repr

/-- A text that ends with a line feed. -/
def endLine (text : String) : String :=
  if text.toList.getLast? = some '\n' then text else text ++ "\n"

/-- The outcome of what a command gives. -/
def Product.outcome (product : Product) (world : World) : Outcome :=
  match product.content, product.path.filter (· ≠ "-") with
  | none, _ => ⟨0, "", some product.report, []⟩
  | some content, none => ⟨0, endLine content, some product.report, []⟩
  | some content, some path =>
    match world.writeFault? path with
    | none => ⟨0, "", some product.report, [(path, content)]⟩
    | some fault =>
      let report := errorReport s!"Failed to write {path}" [fault.message]
      ⟨1, "", some (product.report ++ report), []⟩

/-! ## Commands -/

/-- The report of diagnostics on the standard error stream. -/
def diagnosticsReport (diagnostics : List Diagnostic) (asJson : Bool) : String :=
  if diagnostics.isEmpty then ""
  else if asJson then (Json.array (diagnostics.map Diagnostic.toJson)).pretty ++ "\n"
  else concat (diagnostics.map Diagnostic.toText)

/-- Reads an input; a hyphen names the standard input. -/
def World.readInput (world : World) (path : String) : Except CommandFault String :=
  let (name, content) := if path = "-" then ("stdin", world.stdin) else (path, world.read path)
  match content with
  | .ok content => .ok content
  | .error fault => .error ⟨s!"Failed to read {name}", [fault.message]⟩

/-- The world after an input has been read.  The standard input can be read once. -/
def World.afterReading (world : World) (path : String) : World :=
  if path = "-" then { world with stdin := .ok "" } else world

/-- The fault of a command whose work failed. -/
def failed (verb input : String) (failure : Failure) : CommandFault :=
  ⟨s!"Failed to {verb} {input}", [failure.message, failure.cause]⟩

def runExtract (world : World) (input : String) (compact asJson : Bool) :
    Except CommandFault Product :=
  match world.readInput input with
  | .error fault => .error fault
  | .ok xml =>
    match extractFields xml with
    | .error failure => .error (failed "extract fields from" input failure)
    | .ok (fields, diagnostics) =>
      let json := if compact then fields.toJson.compress else fields.toJson.pretty
      .ok
        { event? := some (.extracted fields.mergeFields.length fields.ifFields.length)
          report := diagnosticsReport diagnostics asJson
          content := some json
          path := none }

/-- Reads the data of a processing command, if it has any. -/
def readData (world : World) : Option String → Except CommandFault (Option String)
  | none => .ok none
  | some path => (world.readInput path).map some

def runProcess (world : World) (input : String) (data output : Option String) (options : Options)
    (asJson : Bool) : Except CommandFault Product :=
  match world.readInput input with
  | .error fault => .error fault
  | .ok xml =>
    match readData (world.afterReading input) data with
    | .error fault => .error fault
    | .ok text =>
      match processWithJson xml text options with
      | .error failure => .error (failed "process" input failure)
      | .ok processed =>
        .ok
          { event? := some (.processed input processed.diagnostics.length)
            report := diagnosticsReport processed.diagnostics asJson
            content := some processed.xml
            path := output }

def runSimplify (world : World) (input : String) (output : Option String) :
    Except CommandFault Product :=
  match world.readInput input with
  | .error fault => .error fault
  | .ok xml =>
    match simplifyMarkup xml with
    | .error failure => .error (failed "simplify" input failure)
    | .ok simplified =>
      .ok
        { event? := some (.simplified input xml.utf8ByteSize simplified.utf8ByteSize)
          report := ""
          content := some simplified
          path := output }

/-- Lists the texts of a document one to a line; without any text there is no output. -/
def runText (world : World) (input : String) : Except CommandFault Product :=
  match world.readInput input with
  | .error fault => .error fault
  | .ok xml =>
    match Session.start xml {} with
    | .error failure => .error (failed "parse" input failure)
    | .ok session =>
      let lines := String.ofList (joinLines (session.document.textRuns.map String.toList))
      .ok ⟨none, "", if lines.isEmpty then none else some lines, none⟩

def Command.run (command : Command) (world : World) (asJson : Bool) :
    Except CommandFault Product :=
  match command with
  | .extract input compact => runExtract world input compact asJson
  | .process input data output options => runProcess world input data output options asJson
  | .simplify input output => runSimplify world input output
  | .text input => runText world input

/-! ## Requests -/

def versionText : String := "ooxml-fields 0.1.0\n"

def helpText : String :=
  "Usage: ooxml-fields [--verbose] [--diagnostics-json] <extract|process|simplify|text> <INPUT>\n"

def Request.execute (request : Request) (world : World) : Outcome :=
  match request with
  | .version => ⟨0, versionText, some "", []⟩
  | .help => ⟨0, helpText, some "", []⟩
  | .run command report =>
    match command.run world report.diagnosticsJson with
    | .ok product =>
      (product.outcome world).behind (world.log report.verbose (.details :: product.event?.toList))
    | .error fault =>
      Outcome.behind ⟨1, "", some (errorReport fault.context fault.causes), []⟩
        (world.log report.verbose [.details])

/-- The outcome of a command line. -/
def execute (words : List String) (world : World) : Outcome :=
  match Request.ofWords? words with
  | some request => request.execute world
  | none => Outcome.usage

end WordFields.CommandLine
