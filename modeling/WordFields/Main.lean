import WordFields.CommandLine.Execution
import WordFields.CommandLine.FileList

/-!
# The command

Runs a command line against the real files.  The inputs that a request names are read first; what
comes of them is decided by `Request.execute`, and only then is anything written.
-/

namespace WordFields.CommandLine

/-- The inputs a command reads. -/
def Command.inputs : Command → List String
  | .extract input _ => [input]
  | .process input data _ _ => input :: data.toList
  | .simplify input _ => [input]
  | .text input => [input]

/-- Whether an error has a number of the system, which some functions report negated. -/
def hasNumber (code number : UInt32) : Bool :=
  code = number || code = 0 - number

/-- The fault that stands for an error of the system. -/
def faultOf (e : IO.Error) : FileFault :=
  match e with
  | .noFileOrDirectory _ _ _ => .notFound
  | .inappropriateType _ code _ => if hasNumber code 21 then .isDirectory else .notDirectory
  | .invalidArgument _ code _ =>
    if hasNumber code 36 then .nameTooLong else .other (toString e)
  | e => .other (toString e)

/-- Reads bytes that are to be a text. -/
def load (bytes : IO ByteArray) : IO (Except FileFault String) := do
  try
    match String.fromUTF8? (← bytes) with
    | some text => return .ok text
    | none => return .error .notText
  catch e =>
    return .error (faultOf e)

/-- The part of the world that a command can see.  No log is kept. -/
def loadWorld (command : Command) : IO World := do
  let inputs := command.inputs
  let stdin ←
    if inputs.contains "-" then load do (← IO.getStdin).readBinToEnd else pure (.ok "")
  let files ← (inputs.filter (· ≠ "-")).mapM fun (path : String) =>
    return (path, ← load (IO.FS.readBinFile path))
  return {
    stdin
    read := fun path => (files.lookup path).getD (.error .notFound)
    writeFault? := fun _ => none
    logLines := fun _ => ""
    filteredLines? := none }

/-- Shows an outcome and writes its files. -/
def present (outcome : Outcome) : IO UInt32 := do
  try
    for (path, content) in outcome.written do
      IO.FS.writeFile path content
    IO.eprint (outcome.stderr.getD helpText)
    IO.print outcome.stdout
    return outcome.code.toUInt32
  catch e =>
    IO.eprint (outcome.stderr.getD "")
    let path := (outcome.written.map Prod.fst).headD ""
    IO.eprint (errorReport s!"Failed to write {path}" [(faultOf e).message])
    return 1

end WordFields.CommandLine

open WordFields.CommandLine in
def main (words : List String) : IO UInt32 := do
  match Request.ofWords? words with
  | none => present Outcome.usage
  | some (.run command report) =>
    present ((Request.run command report).execute (← loadWorld command))
  | some request => present (request.execute (FileList.world [] ""))
