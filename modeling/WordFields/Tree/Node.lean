import WordFields.Tree.Name

/-!
# Nodes

What a node of a document holds: its kind with the content of that kind, and its place in the
tree as the handle of its parent and the handles of its children.
-/

namespace WordFields

/-- The handle of a node.  It stays valid for the life of its document. -/
abbrev NodeId := Nat

structure Attribute where
  name : QualifiedName
  /-- The namespace that the prefix stands for.  Unprefixed attributes are in no namespace. -/
  namespaceName : Option String
  value : String
  deriving DecidableEq, Repr

structure Element where
  name : QualifiedName
  /-- The namespace of the prefix, or the default namespace of an unprefixed element. -/
  namespaceName : Option String
  attributes : List Attribute
  deriving DecidableEq, Repr

namespace Element

/-- Whether an element has the given namespace and local name. -/
def isNamed (element : Element) (namespaceName localName : String) : Bool :=
  element.name.localName == localName && element.namespaceName == some namespaceName

/-- The value of the attribute that markup writes as `name`. -/
def attribute? (element : Element) (name : String) : Option String :=
  (element.attributes.find? fun a => a.name.toString == name).map Attribute.value

/-- The value of the attribute with the given namespace and local name. -/
def attributeIn? (element : Element) (namespaceName localName : String) : Option String :=
  (element.attributes.find? fun a =>
    a.name.localName == localName && a.namespaceName == some namespaceName).map Attribute.value

/-- Replaces the value of the first attribute of that name. -/
def replaceValue (name : QualifiedName) (value : String) : List Attribute → List Attribute
  | [] => []
  | a :: rest =>
    if a.name = name then { a with value } :: rest else a :: replaceValue name value rest

/-- Sets an attribute, a new one being added at the end and in no namespace. -/
def setAttribute (element : Element) (name value : String) : Element :=
  let name := QualifiedName.ofString name
  if element.attributes.any fun a => a.name == name then
    { element with attributes := replaceValue name value element.attributes }
  else { element with attributes := element.attributes ++ [⟨name, none, value⟩] }

end Element

/-- The kinds of node.  The last six hold the text between their delimiters, with references
resolved in `text` only. -/
inductive NodeKind where
  | document
  | element (element : Element)
  | text (value : String)
  | cdata (value : String)
  | comment (value : String)
  | declaration (value : String)
  | processing (value : String)
  | doctype (value : String)
  deriving DecidableEq, Repr

namespace NodeKind

def element? : NodeKind → Option Element
  | .element e => some e
  | _ => none

def isElement (kind : NodeKind) : Bool :=
  kind.element?.isSome

/-- The characters a node of this kind adds to the text of its ancestors. -/
def textValue? : NodeKind → Option String
  | .text value => some value
  | .cdata value => some value
  | _ => none

end NodeKind

structure Node where
  kind : NodeKind
  parent : Option NodeId
  children : List NodeId
  deriving DecidableEq, Repr

/-- A node of the given kind that is in no tree yet. -/
def Node.loose (kind : NodeKind) : Node :=
  ⟨kind, none, []⟩

end WordFields
