import WordFields.Tree.Document

/-!
# Edits

Every change to a document.  New nodes take the next free handle and start detached; the other
edits move nodes or replace what a node holds, and leave the number of nodes alone.
-/

namespace WordFields.Document

/-- Applies a change to one node. -/
def modify (d : Document) (id : NodeId) (change : Node → Node) : Document :=
  ⟨d.nodes.modify id change⟩

def setParent (d : Document) (id : NodeId) (parent : Option NodeId) : Document :=
  d.modify id fun n => { n with parent }

def setChildren (d : Document) (id : NodeId) (children : List NodeId) : Document :=
  d.modify id fun n => { n with children }

def setKind (d : Document) (id : NodeId) (kind : NodeKind) : Document :=
  d.modify id fun n => { n with kind }

/-- Adds a detached node and gives its handle. -/
def create (d : Document) (kind : NodeKind) : NodeId × Document :=
  (d.size, ⟨d.nodes.push (Node.loose kind)⟩)

/-! ## Moving nodes -/

/-- Detaches a node, with everything below it, from its parent. -/
def remove (d : Document) (id : NodeId) : Document :=
  match d.parent id with
  | some p => (d.setChildren p ((d.children p).erase id)).setParent id none
  | none => d.setParent id none

/-- Makes a node the last child of another. -/
def appendChild (d : Document) (parent child : NodeId) : Document :=
  let d := d.remove child
  let siblings := d.children parent ++ [child]
  (d.setParent child (some parent)).setChildren parent siblings

/-- A list with `new` directly before the first `reference`. -/
def placeBefore (new reference : NodeId) : List NodeId → List NodeId
  | [] => []
  | id :: rest => if id = reference then new :: id :: rest else id :: placeBefore new reference rest

/-- Puts a node directly before another one.  If the other one has no parent, the node is only
detached and the answer is `false`. -/
def insertBefore (d : Document) (id reference : NodeId) : Bool × Document :=
  let d := d.remove id
  match d.parent reference with
  | some p =>
    let siblings := d.children p
    if siblings.contains reference then
      (true, (d.setParent id (some p)).setChildren p (placeBefore id reference siblings))
    else (false, d)
  | none => (false, d)

/-! ## Content -/

/-- Adds a node and makes it the last child of another. -/
def appendNew (d : Document) (parent : NodeId) (kind : NodeKind) : NodeId × Document :=
  let (id, d) := d.create kind
  (id, d.appendChild parent id)

/-- Detaches all children of a node. -/
def clearChildren (d : Document) (id : NodeId) : Document :=
  ((d.children id).foldl (fun d child => d.setParent child none) d).setChildren id []

/-- Replaces the children of a node by one text node, or by nothing if the text is empty. -/
def setTextContent (d : Document) (id : NodeId) (text : String) : Document :=
  let d := d.clearChildren id
  if text.isEmpty then d else (d.appendNew id (.text text)).2

/-- Replaces the value of a text, CDATA or comment node; a node of another kind has no such value
and the answer is `false`. -/
def setValue (d : Document) (id : NodeId) (value : String) : Bool × Document :=
  match d.kind id with
  | .text _ => (true, d.setKind id (.text value))
  | .cdata _ => (true, d.setKind id (.cdata value))
  | .comment _ => (true, d.setKind id (.comment value))
  | _ => (false, d)

/-- Sets an attribute of an element; other nodes have none. -/
def setAttribute (d : Document) (id : NodeId) (name value : String) : Document :=
  match d.kind id with
  | .element e => d.setKind id (.element (e.setAttribute name value))
  | _ => d

end WordFields.Document
