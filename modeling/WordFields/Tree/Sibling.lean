import WordFields.Tree.Document

/-!
# Siblings

The nodes beside a node, nearest first.  Element siblings are found among them by their kind, so
text, comments and instructions in between do not count.
-/

namespace WordFields.Document

/-- The children of the parent of `id`, if `id` is among them. -/
def siblingsOf (d : Document) (id : NodeId) : List NodeId :=
  match d.parent id with
  | some p => if (d.children p).contains id then d.children p else []
  | none => []

/-- The siblings after a node in document order. -/
def followingSiblings (d : Document) (id : NodeId) : List NodeId :=
  ((d.siblingsOf id).dropWhile (· ≠ id)).drop 1

/-- The siblings before a node, the nearest first. -/
def precedingSiblings (d : Document) (id : NodeId) : List NodeId :=
  ((d.siblingsOf id).takeWhile (· ≠ id)).reverse

def nextSibling? (d : Document) (id : NodeId) : Option NodeId :=
  (d.followingSiblings id).head?

def previousSibling? (d : Document) (id : NodeId) : Option NodeId :=
  (d.precedingSiblings id).head?

def followingElements (d : Document) (id : NodeId) : List NodeId :=
  (d.followingSiblings id).filter d.isElement

def precedingElements (d : Document) (id : NodeId) : List NodeId :=
  (d.precedingSiblings id).filter d.isElement

def nextElement? (d : Document) (id : NodeId) : Option NodeId :=
  (d.followingElements id).head?

def previousElement? (d : Document) (id : NodeId) : Option NodeId :=
  (d.precedingElements id).head?

end WordFields.Document
