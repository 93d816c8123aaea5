import WordFields.CommandLine.Argument
import WordFields.Options

/-!
# Requests

What a command line asks for.  There are four commands, each on one input:

* `extract` describes the fields, `process` runs the passes, `simplify` simplifies the markup and
  `text` lists the texts.

The flags `--verbose` and `--diagnostics-json` may stand before or after the command's name, all
other options only after it.  `help` in the place of a command and the flags `--help` and
`--version` are requests of their own.
-/

namespace WordFields.CommandLine

inductive Command where
  | extract (input : String) (compact : Bool)
  | process (input : String) (data output : Option String) (options : Options)
  | simplify (input : String) (output : Option String)
  | text (input : String)
  deriving DecidableEq, Repr

/-- What goes to the standard error stream: diagnostics as JSON or as text, and the details of the
log or not. -/
structure ReportOptions where
  diagnosticsJson : Bool
  verbose : Bool
  deriving DecidableEq, Repr

inductive Request where
  | version
  | help
  | run (command : Command) (report : ReportOptions)
  deriving DecidableEq, Repr

/-! ## Options -/

def globalSpecs : List OptionSpec :=
  [⟨"verbose", some 'v', .flag⟩, ⟨"diagnostics-json", none, .flag⟩, ⟨"help", some 'h', .request⟩]

def topSpecs : List OptionSpec :=
  globalSpecs ++ [⟨"version", some 'V', .request⟩]

/-- The options of a command, or none if there is no such command. -/
def commandSpecs? (name : String) : Option (List OptionSpec) :=
  match name with
  | "extract" => some (globalSpecs ++ [⟨"compact", none, .flag⟩])
  | "process" =>
    some <| globalSpecs ++
      [⟨"data", some 'd', .text⟩, ⟨"output", some 'o', .text⟩, ⟨"placeholder", none, .text⟩,
        ⟨"no-merge-comments", none, .flag⟩,
        ⟨"else-policy", none, .choice (ElsePolicy.names.map Prod.fst)⟩,
        ⟨"merge-only", none, .flag⟩, ⟨"if-only", none, .flag⟩]
  | "simplify" => some (globalSpecs ++ [⟨"output", some 'o', .text⟩])
  | "text" => some globalSpecs
  | _ => none

/-! ## Commands -/

/-- The options of a processing command.  It cannot be confined to both kinds of field. -/
def processOptions? (arguments : List Argument) : Option Options :=
  let mergeOnly := hasFlag arguments "merge-only"
  let ifOnly := hasFlag arguments "if-only"
  let defaults : Options := {}
  if mergeOnly && ifOnly then none
  else
    some
      { defaults with
        placeholder := (value? arguments "placeholder").getD defaults.placeholder
        mergeComments := !hasFlag arguments "no-merge-comments"
        elsePolicy :=
          ((value? arguments "else-policy").bind ElsePolicy.ofName?).getD defaults.elsePolicy
        mergeFields := !ifOnly
        ifFields := !mergeOnly }

/-- The options of the report, from the flags before the name of a command and the arguments after
it. -/
def reportOptions (above arguments : List Argument) : ReportOptions where
  diagnosticsJson := hasFlag above "diagnostics-json" || hasFlag arguments "diagnostics-json"
  verbose := hasFlag above "verbose" || hasFlag arguments "verbose"

/-- The command with a name and the arguments after it.  It must have an input. -/
def command? (name : String) (arguments : List Argument) : Option Command :=
  match positional? arguments with
  | none => none
  | some input =>
    match name with
    | "extract" => some (.extract input (hasFlag arguments "compact"))
    | "process" =>
      (processOptions? arguments).map fun options =>
        .process input (value? arguments "data") (value? arguments "output") options
    | "simplify" => some (.simplify input (value? arguments "output"))
    | "text" => some (.text input)
    | _ => none

/-- The request for help, on one command perhaps. -/
def helpRequest? : List String → Option Request
  | [] => some .help
  | [topic] => if topic = "help" || (commandSpecs? topic).isSome then some .help else none
  | _ => none

/-- The request of a command's name and the words after it; `above` are the flags before it. -/
def commandRequest? (above : List Argument) (name : String) (words : List String) :
    Option Request :=
  if name = "help" then helpRequest? words
  else
    match (commandSpecs? name).bind fun specs => readAll? specs words with
    | none => none
    | some arguments =>
      if hasFlag arguments "help" then some .help
      else
        (command? name arguments).map fun command => .run command (reportOptions above arguments)

/-- Reads flags up to the name of a command or up to a flag that is a request by itself. -/
def readTop? : List Argument → List String → Option Request
  | _, [] => none
  | seen, word :: rest =>
    if looksLikeOption word then
      match (readWord? topSpecs word []).bind fun (arguments, _) => addAll? seen arguments with
      | none => none
      | some seen =>
        if hasFlag seen "version" then some .version
        else if hasFlag seen "help" then some .help
        else readTop? seen rest
    else commandRequest? seen word rest

/-- The request that the words of a command line make, if they make one. -/
def Request.ofWords? (words : List String) : Option Request :=
  readTop? [] words

end WordFields.CommandLine
