import WordFields.Markup.Reference
import WordFields.Tree.Document

/-!
# Writing markup

A document is written node by node in document order.  An element without children is written as
one self-closing tag, attribute values stand in double quotes, and the contents of the kinds that
hold raw text are written as they are.
-/

namespace WordFields.Document

open Markup

/-- One attribute with the space before it. -/
def attributeMarkup (a : Attribute) : List Char :=
  ' ' :: a.name.toChars ++ '=' :: '"' :: escapeValue a.value.toList ++ ['"']

/-- What stands in the start tag of an element, self-closing or not. -/
def tagMarkup (e : Element) : List Char :=
  e.name.toChars ++ e.attributes.flatMap attributeMarkup

/-- The markup of an element around that of its children. -/
def elementMarkup (e : Element) (isEmpty : Bool) (content : List Char) : List Char :=
  if isEmpty then '<' :: tagMarkup e ++ "/>".toList
  else '<' :: tagMarkup e ++ '>' :: content ++ "</".toList ++ e.name.toChars ++ ['>']

/-- The markup of a node and everything below it, down to `depth` levels. -/
def nodeMarkup (d : Document) : Nat → NodeId → List Char
  | 0, _ => []
  | depth + 1, id =>
    match d.kind id with
    | .document => (d.children id).flatMap (nodeMarkup d depth)
    | .element e =>
      elementMarkup e (d.children id).isEmpty ((d.children id).flatMap (nodeMarkup d depth))
    | .text value => escapeText value.toList
    | .cdata value => "<![CDATA[".toList ++ value.toList ++ "]]>".toList
    | .comment value => "<!--".toList ++ value.toList ++ "-->".toList
    | .declaration value => "<?".toList ++ value.toList ++ "?>".toList
    | .processing value => "<?".toList ++ value.toList ++ "?>".toList
    | .doctype value => "<!DOCTYPE ".toList ++ value.toList ++ ['>']

/-- The markup of the whole document.  No chain of nodes is longer than the document. -/
def toChars (d : Document) : List Char :=
  (d.children root).flatMap (d.nodeMarkup d.size)

def toMarkup (d : Document) : String :=
  String.ofList d.toChars

end WordFields.Document
