import WordFields.Tree.Node

/-!
# Documents

A document is a store of nodes, each known by its index.  Node `0` is the document node; the
nodes reachable from it are *attached*.  Taking a node out of the tree only detaches it, so a
handle never changes its meaning.

This module has the views of a document: kind, parent and children of a node, the nodes below it
in document order, and its text.  `Tree.Sibling` looks sideways and `Tree.Edit` changes a document.
-/

namespace WordFields

structure Document where
  nodes : Array Node
  deriving DecidableEq, Repr

namespace Document

/-- The document that has only its document node. -/
def empty : Document :=
  ⟨#[Node.loose .document]⟩

/-- The handle of the document node. -/
def root : NodeId := 0

def size (d : Document) : Nat :=
  d.nodes.size

/-- The node of a handle.  A handle that no node has reads as a loose node without content. -/
def node (d : Document) (id : NodeId) : Node :=
  d.nodes[id]?.getD (Node.loose .document)

def kind (d : Document) (id : NodeId) : NodeKind :=
  (d.node id).kind

def parent (d : Document) (id : NodeId) : Option NodeId :=
  (d.node id).parent

def children (d : Document) (id : NodeId) : List NodeId :=
  (d.node id).children

/-! ## Elements -/

def element? (d : Document) (id : NodeId) : Option Element :=
  (d.kind id).element?

def isElement (d : Document) (id : NodeId) : Bool :=
  (d.kind id).isElement

/-- Whether a node is an element with the given namespace and local name. -/
def isElementIn (d : Document) (id : NodeId) (namespaceName localName : String) : Bool :=
  (d.element? id).any fun e => e.isNamed namespaceName localName

/-- The first element directly below the document node. -/
def documentElement? (d : Document) : Option NodeId :=
  (d.children root).find? d.isElement

def attribute? (d : Document) (id : NodeId) (name : String) : Option String :=
  (d.element? id).bind fun e => e.attribute? name

def attributeIn? (d : Document) (id : NodeId) (namespaceName localName : String) : Option String :=
  (d.element? id).bind fun e => e.attributeIn? namespaceName localName

/-! ## The way up -/

/-- Whether the chain of parents leads from a node to the document node, every node on the way
being a child of the next.  `steps` bounds the length of the chain. -/
def climbs (d : Document) : Nat → NodeId → Bool
  | steps, id =>
    if id = root then true
    else
      match steps with
      | 0 => false
      | steps + 1 =>
        match d.parent id with
        | some p => (d.children p).contains id && climbs d steps p
        | none => false

/-- Whether a node is in the tree of the document node. -/
def isAttached (d : Document) (id : NodeId) : Bool :=
  d.climbs d.size id

/-- The nearest node on the chain of parents, the node itself included, that passes a test. -/
def nearest? (d : Document) (test : NodeId → Bool) : Nat → NodeId → Option NodeId
  | steps, id =>
    if test id then some id
    else
      match steps with
      | 0 => none
      | steps + 1 =>
        match d.parent id with
        | some p => nearest? d test steps p
        | none => none

/-! ## The way down -/

/-- The nodes of a list with everything below them, in document order.  `steps` bounds how many
nodes are listed. -/
def walk (d : Document) : Nat → List NodeId → List NodeId
  | 0, _ => []
  | _ + 1, [] => []
  | steps + 1, id :: pending => id :: walk d steps (d.children id ++ pending)

/-- The nodes below a node in document order, without the node itself. -/
def descendants (d : Document) (id : NodeId) : List NodeId :=
  d.walk d.size (d.children id)

/-- The elements below a node with the given namespace and local name, in document order. -/
def descendantsIn (d : Document) (id : NodeId) (namespaceName localName : String) : List NodeId :=
  (d.descendants id).filter fun n => d.isElementIn n namespaceName localName

/-- The first such element. -/
def firstDescendantIn? (d : Document) (id : NodeId) (namespaceName localName : String) :
    Option NodeId :=
  (d.descendants id).find? fun n => d.isElementIn n namespaceName localName

/-- The characters of a text or CDATA node, or of all those below another node, in document
order. -/
def textContent (d : Document) (id : NodeId) : String :=
  match (d.kind id).textValue? with
  | some value => value
  | none => Text.concat ((d.descendants id).filterMap fun n => (d.kind n).textValue?)

end Document

end WordFields
