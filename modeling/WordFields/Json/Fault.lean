import WordFields.Text.Search

/-!
# Faults of JSON text

Why a text cannot be read as JSON, or not as JSON of an expected shape.  A scanner that stops
reports how many bytes it has left unread; from that the line and the column of the fault follow.
-/

namespace WordFields.Json

open Text

inductive Cause where
  | endInValue
  | endInList
  | endInObject
  | endInString
  | expectedValue
  | expectedColon
  | expectedListSeparator
  | expectedObjectSeparator
  | keyNotString
  | trailingComma
  | trailingCharacters
  | expectedWord
  | invalidNumber
  | numberOutOfRange
  | invalidEscape
  | incompleteSurrogatePair
  | loneSurrogate
  | controlCharacter
  | tooDeep
  /-- The text is JSON so far, but not of the shape that is wanted. -/
  | unexpectedShape
  deriving DecidableEq, Repr

namespace Cause

def message : Cause → String
  | .endInValue => "EOF while parsing a value"
  | .endInList => "EOF while parsing a list"
  | .endInObject => "EOF while parsing an object"
  | .endInString => "EOF while parsing a string"
  | .expectedValue => "expected value"
  | .expectedColon => "expected `:`"
  | .expectedListSeparator => "expected `,` or `]`"
  | .expectedObjectSeparator => "expected `,` or `\x7d`"
  | .keyNotString => "key must be a string"
  | .trailingComma => "trailing comma"
  | .trailingCharacters => "trailing characters"
  | .expectedWord => "expected ident"
  | .invalidNumber => "invalid number"
  | .numberOutOfRange => "number out of range"
  | .invalidEscape => "invalid escape"
  | .incompleteSurrogatePair => "unexpected end of hex escape"
  | .loneSurrogate => "lone leading surrogate in hex escape"
  | .controlCharacter => "control character (\\u0000-\\u001F) found while parsing a string"
  | .tooDeep => "recursion limit exceeded"
  | .unexpectedShape => "unexpected shape"

end Cause

/-- The three ways in which a text fails to be JSON of a wanted shape. -/
inductive Category where
  /-- It ends too early. -/
  | truncated
  /-- It is not JSON. -/
  | malformed
  /-- It is JSON of another shape. -/
  | mistyped
  deriving DecidableEq, Repr

def Cause.category : Cause → Category
  | .endInValue => .truncated
  | .endInList => .truncated
  | .endInObject => .truncated
  | .endInString => .truncated
  | .unexpectedShape => .mistyped
  | _ => .malformed

/-- A cause with the number of bytes after the place it is reported at. -/
structure Fault where
  cause : Cause
  unread : Nat
  deriving DecidableEq, Repr

/-- A value that was read, and the text after it. -/
abbrev Scan (α : Type) := Except Fault (α × List Char)

/-- Reports a cause at the next byte of a text, that byte counted as read; at the end of the text
if there is none. -/
def failAt {α : Type} (cause : Cause) (text : List Char) : Except Fault α :=
  .error ⟨cause, byteLength text - 1⟩

/-- Reports a cause before the next byte of a text. -/
def failBefore {α : Type} (cause : Cause) (text : List Char) : Except Fault α :=
  .error ⟨cause, byteLength text⟩

/-! ## Places in a text -/

/-- The place of a fault: lines count from one, and the column is the number of bytes read on the
line. -/
structure Error where
  cause : Cause
  line : Nat
  column : Nat
  deriving DecidableEq, Repr

/-- Moves the place `line`, `column` over the first `bytes` bytes of a text. -/
def advance : Nat → Nat → Nat → List Char → Nat × Nat
  | _, line, column, [] => (line, column)
  | bytes, line, column, c :: text =>
    if bytes = 0 then (line, column)
    else if c = '\n' then advance (bytes - 1) (line + 1) 0 text
    else advance (bytes - c.utf8Size) line (column + min bytes c.utf8Size) text

def Fault.inText (fault : Fault) (text : List Char) : Error :=
  let (line, column) := advance (byteLength text - fault.unread) 1 0 text
  ⟨fault.cause, line, column⟩

def Error.message (e : Error) : String :=
  s!"{e.cause.message} at line {e.line} column {e.column}"

end WordFields.Json
