import WordFields.Text.Search

/-!
# Markup events

What a reader meets in markup, one construct at a time: tags, text and the constructs that start
with `<!` or `<?`.  The contents are the characters between the delimiters as they are written.
-/

namespace WordFields.Markup

/-- The blank characters of markup. -/
def isSpace (c : Char) : Bool :=
  c = ' ' || c = '\t' || c = '\r' || c = '\n'

/-- The content of a start tag: its name, and the rest in which its attributes are. -/
structure Tag where
  name : List Char
  rest : List Char
  deriving DecidableEq, Repr

namespace Tag

/-- A tag's name reaches to the first space. -/
def ofContent (content : List Char) : Tag :=
  ⟨content.takeWhile fun c => !isSpace c, content.dropWhile fun c => !isSpace c⟩

def content (tag : Tag) : List Char :=
  tag.name ++ tag.rest

end Tag

inductive Event where
  | opening (tag : Tag)
  | selfClosing (tag : Tag)
  | closing (name : List Char)
  | text (raw : List Char)
  | cdata (content : List Char)
  | comment (content : List Char)
  | declaration (content : List Char)
  | processing (content : List Char)
  | doctype (content : List Char)
  deriving DecidableEq, Repr

end WordFields.Markup
