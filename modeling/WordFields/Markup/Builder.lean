import WordFields.Markup.Attribute
import WordFields.Markup.Error
import WordFields.Markup.Reader
import WordFields.Markup.Reference
import WordFields.Text.Blank
import WordFields.Tree.Edit

/-!
# Building a document

The builder turns events into a document.  It keeps the open elements and, for each of them, the
namespaces its attributes declare, so that a prefix is looked up from the innermost element
outwards.  On top of what the reader refuses it refuses a second element at the top, text that is
not blank outside all elements, attributes that cannot be read and references without a character.

`parse` is the reading of a whole text.  The events before the one that the reader fails at are
built first, so of two faults the earlier one is reported.
-/

namespace WordFields.Markup

open Text

/-- The namespace of the prefix `xml`, which needs no declaration. -/
def xmlNamespace : String := "http://www.w3.org/XML/1998/namespace"

/-- A declared prefix, or none for the default namespace, with the namespace it stands for. -/
structure Binding where
  nsPrefix : Option String
  namespaceName : String
  deriving DecidableEq, Repr

/-- The binding that an attribute declares, if it declares one. -/
def Binding.ofAttribute? (key : List Char) (value : String) : Option Binding :=
  if key = "xmlns".toList then some ⟨none, value⟩
  else (after? "xmlns:".toList key).map fun name => ⟨some (String.ofList name), value⟩

/-- An element whose end tag has not come yet. -/
structure OpenElement where
  id : NodeId
  name : List Char
  deriving DecidableEq, Repr

structure Builder where
  document : Document
  /-- The open elements, the innermost first. -/
  openElements : List OpenElement
  /-- The bindings of the open elements, the innermost element first. -/
  scopes : List (List Binding)
  hasRoot : Bool
  deriving DecidableEq, Repr

namespace Builder

def empty : Builder :=
  ⟨Document.empty, [], [], false⟩

/-- The node that new nodes go below. -/
def currentParent (b : Builder) : NodeId :=
  match b.openElements with
  | [] => Document.root
  | innermost :: _ => innermost.id

/-- The namespace a prefix stands for under the given scopes.  The empty namespace is none. -/
def resolve? (scopes : List (List Binding)) (nsPrefix : Option String) : Option String :=
  if nsPrefix = some "xml" then some xmlNamespace
  else
    ((scopes.flatten.find? fun b => b.nsPrefix == nsPrefix).map Binding.namespaceName).filter
      fun name => !name.isEmpty

/-- Adds a node without children. -/
def addLeaf (b : Builder) (kind : NodeKind) : Builder :=
  { b with document := (b.document.appendNew b.currentParent kind).2 }

/-! ## Start tags -/

/-- The keys of attributes and their values with references resolved, up to the first reference
that stands for no character. -/
def resolveValues (place : Place) : List RawAttribute → Except Error (List (List Char × String))
  | [] => .ok []
  | raw :: rest =>
    match resolve raw.value with
    | .error fault =>
      .error (.malformed s!"Invalid attribute value: {fault.message}" (some place.position))
    | .ok value => (resolveValues place rest).map ((raw.key, String.ofList value) :: ·)

/-- The attributes of a tag at a place.  Faults are reported in the order in which the attributes
come. -/
def readAttributes (place : Place) (tag : Tag) : Except Error (List (List Char × String)) :=
  match resolveValues place tag.attributes.attributes, tag.attributes.fault with
  | .error e, _ => .error e
  | .ok _, some fault => .error (.malformed s!"Attribute error: {fault.message}" none)
  | .ok values, none => .ok values

/-- The element of a start tag.  What its attributes declare holds for the element itself. -/
def elementOf (scopes : List (List Binding)) (name : List Char)
    (attributes : List (List Char × String)) : Element :=
  let name := QualifiedName.ofChars name
  { name
    namespaceName := resolve? scopes name.nsPrefix
    attributes := attributes.map fun (key, value) =>
      let name := QualifiedName.ofChars key
      { name, value
        namespaceName := if name.nsPrefix.isSome then resolve? scopes name.nsPrefix else none } }

/-- Adds the element of a start tag; gives its handle and the bindings it declares. -/
def addElement (b : Builder) (place : Place) (tag : Tag) :
    Except Error (NodeId × List Binding × Builder) :=
  if b.openElements.isEmpty && b.hasRoot then .error (.multipleRoots (some place.position))
  else
    match readAttributes place tag with
    | .error e => .error e
    | .ok attributes =>
      let bindings := attributes.filterMap fun (key, value) => Binding.ofAttribute? key value
      let kind := .element (elementOf (bindings :: b.scopes) tag.name attributes)
      let (id, document) := b.document.appendNew b.currentParent kind
      .ok (id, bindings, { b with document, hasRoot := true })

/-! ## Events -/

/-- Closes the innermost element. -/
def close (b : Builder) (place : Place) (name : List Char) : Except Error Builder :=
  match b.openElements with
  | [] =>
    .error (.invalidStructure s!"Unexpected closing tag </{String.ofList name}>"
      (some place.position))
  | innermost :: others =>
    if innermost.name = name then
      .ok { b with openElements := others, scopes := b.scopes.drop 1 }
    else
      .error (.mismatchedEndTag (String.ofList innermost.name) (String.ofList name)
        (some place.position))

def addText (b : Builder) (place : Place) (raw : List Char) : Except Error Builder :=
  match resolve raw with
  | .error fault =>
    .error (.malformed s!"Invalid text content: {fault.message}" (some place.position))
  | .ok text =>
    if b.openElements.isEmpty && !allBlank text then
      .error (.invalidStructure "Text content outside of the root element" (some place.position))
    else .ok (b.addLeaf (.text (String.ofList text)))

def step (b : Builder) (placed : PlacedEvent) : Except Error Builder :=
  match placed.event with
  | .opening tag =>
    match b.addElement placed.place tag with
    | .error e => .error e
    | .ok (id, bindings, b) =>
      .ok { b with
        openElements := ⟨id, tag.name⟩ :: b.openElements
        scopes := bindings :: b.scopes }
  | .selfClosing tag =>
    match b.addElement placed.place tag with
    | .error e => .error e
    | .ok (_, _, b) => .ok b
  | .closing name => b.close placed.place name
  | .text raw => b.addText placed.place raw
  | .cdata content => .ok (b.addLeaf (.cdata (String.ofList content)))
  | .comment content => .ok (b.addLeaf (.comment (String.ofList content)))
  | .declaration content => .ok (b.addLeaf (.declaration (String.ofList content)))
  | .processing content => .ok (b.addLeaf (.processing (String.ofList content)))
  | .doctype content => .ok (b.addLeaf (.doctype (String.ofList (trim content))))

/-- Builds events in order and stops at the first error. -/
def run : Builder → List PlacedEvent → Except Error Builder
  | b, [] => .ok b
  | b, placed :: events =>
    match b.step placed with
    | .error e => .error e
    | .ok b => b.run events

/-- The document, once the reader has come to its end. -/
def finish (b : Builder) : Ending → Except Error Document
  | .failed fault place => .error (.malformed fault.message (some place.position))
  | .finished place =>
    match b.openElements with
    | innermost :: _ =>
      .error (.unexpectedEnd s!"closing tag </{String.ofList innermost.name}>"
        (some place.position))
    | [] => if b.hasRoot then .ok b.document else .error .emptyDocument

end Builder

/-- The document that a transcript describes. -/
def Transcript.build (transcript : Transcript) : Except Error Document :=
  match Builder.empty.run transcript.events with
  | .error e => .error e
  | .ok b => b.finish transcript.ending

/-- Reads the document that a text describes. -/
def parseChars (text : List Char) : Except Error Document :=
  (Transcript.ofText text).build

def parse (text : String) : Except Error Document :=
  parseChars text.toList

end WordFields.Markup
