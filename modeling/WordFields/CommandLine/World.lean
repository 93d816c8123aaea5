import WordFields.Text.Search

/-!
# The world of a command

What a command can see outside itself: the standard input, the files it may read, whether a file
may be written, and what the log makes of its events.
-/

namespace WordFields.CommandLine

open Text

/-- Why an input cannot be read or a file cannot be written. -/
inductive FileFault where
  | notFound
  | isDirectory
  | notDirectory
  | nameTooLong
  | notText
  | other (description : String)
  deriving DecidableEq, Repr

namespace FileFault

def message : FileFault → String
  | .notFound => "No such file or directory (os error 2)"
  | .isDirectory => "Is a directory (os error 21)"
  | .notDirectory => "Not a directory (os error 20)"
  | .nameTooLong => "File name too long (os error 36)"
  | .notText => "stream did not contain valid UTF-8"
  | .other description => description

end FileFault

/-! ## The log -/

/-- What a command logs on the standard error stream. -/
inductive LogEvent where
  /-- All that is logged for debugging. -/
  | details
  | extracted (mergeFields ifFields : Nat)
  | processed (input : String) (diagnostics : Nat)
  /-- The lengths are in bytes. -/
  | simplified (input : String) (before after : Nat)
  deriving DecidableEq, Repr

namespace LogEvent

def isDetail : LogEvent → Bool
  | .details => true
  | _ => false

end LogEvent

/-! ## Worlds -/

structure World where
  stdin : Except FileFault String
  /-- The content of a file. -/
  read : String → Except FileFault String
  /-- Why a file cannot be written, if it cannot. -/
  writeFault? : String → Option FileFault
  /-- The lines of the log for an event.  They carry the time. -/
  logLines : LogEvent → String
  /-- The lines that are left by a filter of the environment, if it sets one. -/
  filteredLines? : Option (LogEvent → String)

namespace World

/-- What is logged of one event.  Unless the environment says what to log, that is all but the
details, and these on demand. -/
def logged (world : World) (verbose : Bool) (event : LogEvent) : String :=
  match world.filteredLines? with
  | some filtered => filtered event
  | none => if event.isDetail && !verbose then "" else world.logLines event

/-- What is logged of events that follow each other. -/
def log (world : World) (verbose : Bool) (events : List LogEvent) : String :=
  concat (events.map (world.logged verbose))

end World

end WordFields.CommandLine
