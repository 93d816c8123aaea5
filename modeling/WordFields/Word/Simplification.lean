import WordFields.Markup.Printer
import WordFields.Text.Line
import WordFields.Tree.Edit
import WordFields.Word.View

/-!
# Simplifying a document

Simplification takes out what only concerns the look of a document, in this order: the elements of
presentation, runs that hold nothing but blank text, paragraphs that do, and paragraphs that hold
nothing but a forced line break.  What counts as blank or significant is judged by the direct
children of an element, so a comment in a run keeps it.
-/

namespace WordFields

open Text

/-- The local names of the elements of presentation. -/
def presentationNames : List String :=
  ["tabs", "rFonts", "drawing", "pStyle", "rPr", "pPr", "tcPr", "tblPr", "tblGrid"]

namespace Document

/-- Detaches all elements of presentation, kind by kind. -/
def removePresentation (d : Document) : Document :=
  presentationNames.foldl (fun d name => (d.wordElements name).foldl remove d) d

/-! ## Empty elements -/

def isBlankText (d : Document) (id : NodeId) : Bool :=
  match d.kind id with
  | .text value => allBlank value.toList
  | _ => false

/-- Whether an element has blank text and no children but blank text nodes. -/
def isEmptyElement (d : Document) (id : NodeId) : Bool :=
  allBlank (d.textContent id).toList && (d.children id).all d.isBlankText

/-- Detaches the empty elements of a name until there are none.  Each round but the last detaches
one at least, so `rounds` need not exceed the number of nodes. -/
def removeEmptyWithin (localName : String) : Nat → Document → Document
  | 0, d => d
  | rounds + 1, d =>
    match (d.wordElements localName).filter d.isEmptyElement with
    | [] => d
    | empty => removeEmptyWithin localName rounds (empty.foldl remove d)

def removeEmpty (d : Document) (localName : String) : Document :=
  removeEmptyWithin localName d.size d

/-! ## Paragraphs of a line break -/

/-- The children that are elements or text that is not blank. -/
def significantChildren (d : Document) (id : NodeId) : List NodeId :=
  (d.children id).filter fun child =>
    match d.kind child with
    | .element _ => true
    | .text value => !allBlank value.toList
    | _ => false

/-- Whether a node is a break that only wraps the text. -/
def isForcedBreak (d : Document) (id : NodeId) : Bool :=
  d.isWord id "br" && (d.wordAttribute? id "type").all (· == "textWrapping")

/-- Whether the only significant child of a node is a run whose only significant child is a forced
break. -/
def isBreakParagraph (d : Document) (id : NodeId) : Bool :=
  match d.significantChildren id with
  | [run] =>
    d.isWord run "r" &&
      match d.significantChildren run with
      | [child] => d.isForcedBreak child
      | _ => false
  | _ => false

def removeBreakParagraphs (d : Document) : Document :=
  (d.paragraphs.filter d.isBreakParagraph).foldl remove d

/-! ## All steps -/

def simplify (d : Document) : Document :=
  ((d.removePresentation.removeEmpty "r").removeEmpty "p").removeBreakParagraphs

/-- The markup of a document without blank lines. -/
def denseMarkup (d : Document) : String :=
  String.ofList (dropBlankLines d.toChars)

end Document

end WordFields
