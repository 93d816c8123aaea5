/-!
# Errors of markup

Why a text is not a document.  Positions count bytes from the start of the text.
-/

namespace WordFields.Markup

inductive Error where
  /-- A construct is written wrongly; the position is unknown for some of them. -/
  | malformed (description : String) (position : Option Nat)
  /-- The text ends inside an element. -/
  | unexpectedEnd (expected : String) (position : Option Nat)
  | mismatchedEndTag (expected found : String) (position : Option Nat)
  | invalidStructure (description : String) (position : Option Nat)
  /-- There is no element at all. -/
  | emptyDocument
  /-- There are two elements at the top. -/
  | multipleRoots (position : Option Nat)
  deriving DecidableEq, Repr

namespace Error

def position? : Error → Option Nat
  | .malformed _ position => position
  | .unexpectedEnd _ position => position
  | .mismatchedEndTag _ _ position => position
  | .invalidStructure _ position => position
  | .emptyDocument => none
  | .multipleRoots position => position

/-- The wording of an error.  Only a malformed construct tells its position. -/
def message : Error → String
  | .malformed description position =>
    s!"XML syntax error: {description}" ++
      match position with
      | some n => s!" at byte {n}"
      | none => ""
  | .unexpectedEnd expected _ => s!"Unexpected end of input, expected {expected}"
  | .mismatchedEndTag expected found _ =>
    s!"Mismatched end tag: expected </{expected}>, found </{found}>"
  | .invalidStructure description _ => s!"Invalid XML structure: {description}"
  | .emptyDocument => "Empty XML document: no root element found"
  | .multipleRoots _ => "Invalid XML: multiple root elements"

end Error

end WordFields.Markup
