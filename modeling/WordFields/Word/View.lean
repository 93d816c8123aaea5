import WordFields.Tree.Sibling

/-!
# The word-processing view

A document as a word processor sees it: the elements of one namespace, known by their local names.
The *runs* of a document are its `r` elements in document order.  A run holds text in `t` elements,
and parts of fields: marks that delimit a field, and instructions.
-/

namespace WordFields

/-- The namespace of word-processing markup. -/
def wordNamespace : String := "http://schemas.openxmlformats.org/wordprocessingml/2006/main"

/-- The marks of a field: its instruction stands between the first two, its result between the last
two. -/
inductive FieldMark where
  | beginning
  | separator
  | ending
  deriving DecidableEq, Repr

namespace FieldMark

def name : FieldMark → String
  | .beginning => "begin"
  | .separator => "separate"
  | .ending => "end"

def ofName? (name : String) : Option FieldMark :=
  [("begin", beginning), ("separate", separator), ("end", ending)].lookup name

end FieldMark

namespace Document

/-! ## Elements -/

/-- Whether a node is the word-processing element with the given local name. -/
def isWord (d : Document) (id : NodeId) (localName : String) : Bool :=
  d.isElementIn id wordNamespace localName

/-- All word-processing elements with the given local name, in document order. -/
def wordElements (d : Document) (localName : String) : List NodeId :=
  d.descendantsIn root wordNamespace localName

/-- Those below a node. -/
def wordDescendants (d : Document) (id : NodeId) (localName : String) : List NodeId :=
  d.descendantsIn id wordNamespace localName

def firstWordDescendant? (d : Document) (id : NodeId) (localName : String) : Option NodeId :=
  d.firstDescendantIn? id wordNamespace localName

def wordAttribute? (d : Document) (id : NodeId) (localName : String) : Option String :=
  d.attributeIn? id wordNamespace localName

def paragraphs (d : Document) : List NodeId :=
  d.wordElements "p"

/-- The runs of a document in document order. -/
def runs (d : Document) : List NodeId :=
  d.wordElements "r"

def textElements (d : Document) : List NodeId :=
  d.wordElements "t"

def instructions (d : Document) : List NodeId :=
  d.wordElements "instrText"

/-! ## Fields -/

/-- The mark that an element is.  An element whose type is not known is no mark. -/
def fieldMark? (d : Document) (id : NodeId) : Option FieldMark :=
  if d.isWord id "fldChar" then
    (d.wordAttribute? id "fldCharType").bind FieldMark.ofName?
  else none

/-- The mark that the first field character of a run is. -/
def runMark? (d : Document) (run : NodeId) : Option FieldMark :=
  (d.firstWordDescendant? run "fldChar").bind d.fieldMark?

/-- The first instruction in a run. -/
def runInstruction? (d : Document) (run : NodeId) : Option NodeId :=
  d.firstWordDescendant? run "instrText"

/-- The text of a run. -/
def runText (d : Document) (run : NodeId) : String :=
  Text.concat ((d.wordDescendants run "t").map d.textContent)

/-- The run that a node is or is in. -/
def enclosingRun? (d : Document) (id : NodeId) : Option NodeId :=
  d.nearest? (fun n => d.isWord n "r") d.size id

/-- The texts of all text elements that are not empty, in document order. -/
def textRuns (d : Document) : List String :=
  (d.textElements.map d.textContent).filter fun text => !text.isEmpty

end Document

end WordFields
