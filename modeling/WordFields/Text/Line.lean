import WordFields.Text.Blank

/-!
# Lines

A line ends with a line feed, and a carriage return directly before that line feed belongs to the
ending.  A carriage return anywhere else is an ordinary character of its line.
-/

namespace WordFields.Text

/-- The lines of a text without their endings.  A text that ends with a line feed has no further,
empty line after it. -/
def lines : List Char → List (List Char)
  | [] => []
  | '\n' :: text => [] :: lines text
  | '\r' :: '\n' :: text => [] :: lines text
  | c :: text =>
    match lines text with
    | [] => [[c]]
    | line :: rest => (c :: line) :: rest

/-- Lines joined by line feeds, with none after the last. -/
def joinLines (ls : List (List Char)) : List Char :=
  List.intercalate ['\n'] ls

/-- The text without its blank lines. -/
def dropBlankLines (text : List Char) : List Char :=
  joinLines ((lines text).filter fun line => !allBlank line)

end WordFields.Text
