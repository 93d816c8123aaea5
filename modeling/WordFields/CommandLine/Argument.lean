/-!
# Arguments of a command line

How the words of a command line are taken apart, whatever the command is.  Options have a long
name and perhaps a letter.  A flag stands alone; another option has a value, in the same word or in
the next one.  Letters can be put together in one word, the value of the last one following in it.
After the word `--` everything is positional, and so is a lone hyphen everywhere.

Words are read from the left.  A word that cannot be taken apart, an unknown option, a value that an
option does not take, an option given twice and a second positional word are refused at once, while
what follows a flag that is a request by itself is not looked at.
-/

namespace WordFields.CommandLine

inductive OptionKind where
  | flag
  /-- A flag that is a request by itself. -/
  | request
  /-- An option with any text as its value. -/
  | text
  /-- An option with one of these values. -/
  | choice (values : List String)
  deriving DecidableEq, Repr

/-- An option: its long name, its letter if it has one, and what it is. -/
structure OptionSpec where
  name : String
  letter : Option Char
  kind : OptionKind
  deriving DecidableEq, Repr

inductive Argument where
  | flag (name : String)
  | valued (name value : String)
  | positional (value : String)
  deriving DecidableEq, Repr

namespace Argument

/-- The name of an option.  Positional words have none. -/
def name? : Argument → Option String
  | .flag name => some name
  | .valued name _ => some name
  | .positional _ => none

end Argument

/-- Whether a word is taken as an option, and not as a value. -/
def looksLikeOption (word : String) : Bool :=
  word.toList.head? == some '-' && word != "-"

/-! ## Single words -/

/-- Arguments, and the words that are still to be read. -/
abbrev Reading := List Argument × List String

namespace OptionSpec

def hasValue (spec : OptionSpec) : Bool :=
  match spec.kind with
  | .flag => false
  | .request => false
  | .text => true
  | .choice _ => true

/-- An option with a value, if it takes that value. -/
def withValue? (spec : OptionSpec) (value : String) (rest : List String) : Option Reading :=
  match spec.kind with
  | .text => some ([.valued spec.name value], rest)
  | .choice values => if values.contains value then some ([.valued spec.name value], rest) else none
  | .flag => none
  | .request => none

/-- An option without a value in its own word.  A value is taken from the next word, which must not
look like an option. -/
def alone? (spec : OptionSpec) (rest : List String) : Option Reading :=
  match spec.kind with
  | .flag => some ([.flag spec.name], rest)
  | .request => some ([.flag spec.name], [])
  | _ =>
    match rest with
    | word :: rest => if looksLikeOption word then none else spec.withValue? word rest
    | [] => none

end OptionSpec

/-- Reads a long option from what follows its two hyphens. -/
def readLong? (specs : List OptionSpec) (text : List Char) (rest : List String) : Option Reading :=
  let name := String.ofList (text.takeWhile (· ≠ '='))
  match specs.find? fun spec => spec.name == name, text.dropWhile (· ≠ '=') with
  | none, _ => none
  | some spec, [] => spec.alone? rest
  | some spec, _ :: value => spec.withValue? (String.ofList value) rest

/-- Reads the letters of a word.  The first letter of an option with a value ends them, and so does
that of a request. -/
def readLetters? (specs : List OptionSpec) (rest : List String) : List Char → Option Reading
  | [] => some ([], rest)
  | c :: text =>
    match specs.find? fun spec => spec.letter == some c with
    | none => none
    | some spec =>
      if spec.kind = .flag then
        (readLetters? specs rest text).map fun (arguments, rest) =>
          (.flag spec.name :: arguments, rest)
      else if spec.hasValue && !text.isEmpty then
        spec.withValue? (String.ofList (if text.head? = some '=' then text.drop 1 else text)) rest
      else spec.alone? rest

/-- Reads the options of one word, and of the next if it is their value. -/
def readWord? (specs : List OptionSpec) (word : String) (rest : List String) : Option Reading :=
  match word.toList with
  | '-' :: '-' :: text => readLong? specs text rest
  | '-' :: c :: text => readLetters? specs rest (c :: text)
  | _ => some ([.positional word], rest)

/-! ## All words -/

/-- Adds arguments in order, none of them an option that is there already or a second positional
word. -/
def addAll? : List Argument → List Argument → Option (List Argument)
  | seen, [] => some seen
  | seen, argument :: rest =>
    if seen.any fun a => a.name? == argument.name? then none
    else addAll? (seen ++ [argument]) rest

/-- Reads all words behind the arguments already seen.  Each step takes a word at least. -/
def readAllFrom? (specs : List OptionSpec) :
    Nat → List Argument → List String → Option (List Argument)
  | 0, seen, _ => some seen
  | _ + 1, seen, [] => some seen
  | steps + 1, seen, word :: rest =>
    if word = "--" then addAll? seen (rest.map .positional)
    else
      match readWord? specs word rest with
      | none => none
      | some (arguments, rest) =>
        match addAll? seen arguments with
        | none => none
        | some seen => readAllFrom? specs steps seen rest

/-- The arguments that words are. -/
def readAll? (specs : List OptionSpec) (words : List String) : Option (List Argument) :=
  readAllFrom? specs (words.length + 1) [] words

/-! ## What was given -/

def hasFlag (arguments : List Argument) (name : String) : Bool :=
  arguments.contains (.flag name)

def value? (arguments : List Argument) (name : String) : Option String :=
  arguments.findSome? fun
    | .valued n value => if n = name then some value else none
    | _ => none

/-- The positional word. -/
def positional? (arguments : List Argument) : Option String :=
  arguments.findSome? fun
    | .positional value => some value
    | _ => none

end WordFields.CommandLine
