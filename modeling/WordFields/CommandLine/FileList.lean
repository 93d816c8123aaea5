import WordFields.CommandLine.World
import WordFields.Text.Search

/-!
# Files in a directory

The world of a command that runs in a directory with known files.  A path is followed name by name,
from that directory or from the root of the system, and every name but the last must lead to a
directory.  Around the files little is known: the directories above them hold nothing with a known
name, and the system has its usual directories and the null device.
-/

namespace WordFields.CommandLine

open Text

/-- One name of a path. -/
abbrev Name := List Char

/-- How many bytes a name may have. -/
def nameLimit : Nat := 255

/-- How many bytes a path may have. -/
def pathLimit : Nat := 4095

/-- The names of a path.  Slashes that follow each other separate like one. -/
def pathNames (path : List Char) : List Name :=
  (splitAt '/' path).filter (· ≠ [])

/-- Whether a path says that it leads to a directory. -/
def endsInSlash (path : List Char) : Bool :=
  path.getLast? == some '/'

/-! ## Locations -/

/-- Where a path leads. -/
inductive Location where
  /-- Down from the directory of the files. -/
  | inside (names : List Name)
  /-- Up from it, to a directory about which nothing else is known. -/
  | above
  /-- Down from the root of the system. -/
  | system (names : List Name)
  deriving DecidableEq, Repr

namespace Location

/-- Where the first name of a path is looked up. -/
def start (path : List Char) : Location :=
  if path.head? == some '/' then .system [] else .inside []

/-- The directory that a directory is in; the root of the system is in itself. -/
def parent : Location → Location
  | .inside [] => .above
  | .inside names => .inside names.dropLast
  | .above => .above
  | .system names => .system names.dropLast

/-- The location of a name in a directory. -/
def below? (location : Location) (name : Name) : Option Location :=
  match location with
  | .inside names => some (.inside (names ++ [name]))
  | .above => none
  | .system names => some (.system (names ++ [name]))

end Location

/-- The directories at the root of a system. -/
def systemDirectories : List String :=
  ["bin", "boot", "dev", "etc", "home", "lib", "media", "mnt", "opt", "proc", "root", "run", "sbin",
    "srv", "sys", "tmp", "usr", "var"]

/-- The device that is always empty. -/
def nullDevice : List Name :=
  ["dev".toList, "null".toList]

/-- Files by their paths relative to one directory. -/
abbrev FileList := List (String × String)

namespace FileList

/-- Whether there is a directory at a location: the one of the files, one that some file is in, or
one of the system. -/
def isDirectory (files : FileList) : Location → Bool
  | .inside names =>
    names.isEmpty || files.any fun (path, _) =>
      let whole := pathNames path.toList
      names.length < whole.length && whole.take names.length == names
  | .above => true
  | .system [] => true
  | .system [name] => systemDirectories.contains (String.ofList name)
  | .system _ => false

/-- The content of the file at a location. -/
def content? (files : FileList) : Location → Option String
  | .inside names => (files.find? fun (path, _) => pathNames path.toList == names).map Prod.snd
  | .above => none
  | .system names => if names = nullDevice then some "" else none

/-! ## Paths -/

/-- Follows one name of a path. -/
def step (files : FileList) (location : Location) (name : Name) : Except FileFault Location :=
  if !files.isDirectory location then .error .notDirectory
  else if name = ['.'] then .ok location
  else if name = ['.', '.'] then .ok location.parent
  else if nameLimit < byteLength name then .error .nameTooLong
  else
    match location.below? name with
    | some next =>
      if files.isDirectory next || (files.content? next).isSome then .ok next else .error .notFound
    | none => .error .notFound

/-- Follows names one after the other. -/
def walk (files : FileList) : Location → List Name → Except FileFault Location
  | location, [] => .ok location
  | location, name :: names =>
    match files.step location name with
    | .error fault => .error fault
    | .ok next => files.walk next names

/-- Where a path leads, if there is something. -/
def locate (files : FileList) (path : List Char) : Except FileFault Location :=
  if path.isEmpty then .error .notFound
  else if pathLimit < byteLength path then .error .nameTooLong
  else files.walk (Location.start path) (pathNames path)

/-- The content of the file that a path leads to. -/
def read (files : FileList) (path : String) : Except FileFault String :=
  match files.locate path.toList with
  | .error fault => .error fault
  | .ok location =>
    match files.content? location with
    | some content => if endsInSlash path.toList then .error .notDirectory else .ok content
    | none => .error .isDirectory

/-- The directory and the name that a path gives to a file.  It need not be there yet, but a path
that can only lead to a directory is refused. -/
def target (files : FileList) (path : List Char) : Except FileFault (Location × Name) :=
  if path.isEmpty then .error .notFound
  else if pathLimit < byteLength path then .error .nameTooLong
  else
    match files.walk (Location.start path) (pathNames path).dropLast, (pathNames path).getLast? with
    | .error fault, _ => .error fault
    | .ok _, none => .error .isDirectory
    | .ok location, some name =>
      if !files.isDirectory location then .error .notDirectory
      else if name = ['.'] ∨ name = ['.', '.'] ∨ endsInSlash path then .error .isDirectory
      else if nameLimit < byteLength name then .error .nameTooLong
      else if (location.below? name).any files.isDirectory then .error .isDirectory
      else .ok (location, name)

/-- Why a path cannot be written to. -/
def writeFault? (files : FileList) (path : String) : Option FileFault :=
  match files.target path.toList with
  | .error fault => some fault
  | .ok _ => none

/-- The path relative to the directory of the files under which a written file is found there, if
that is where it is written. -/
def nameOf? (files : FileList) (path : String) : Option String :=
  match files.target path.toList with
  | .ok (.inside names, name) =>
    some (String.ofList (List.intercalate ['/'] (names ++ [name])))
  | _ => none

/-- The world in which there are these files and nothing is logged. -/
def world (files : FileList) (stdin : String) : World where
  stdin := .ok stdin
  read := files.read
  writeFault? := files.writeFault?
  logLines _ := ""
  filteredLines? := some fun _ => ""

end FileList

end WordFields.CommandLine
