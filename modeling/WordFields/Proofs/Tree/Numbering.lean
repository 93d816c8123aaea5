import Mathlib.Data.List.Range
import WordFields.Proofs.Tree.Shape

/-!
# Nodes are numbered in document order

A new node takes the next free handle.  A document that is made by adding trees one behind the
other therefore has its nodes in the order of their handles: what a tree adds is listed by the walk
as the handles that were free, one after the other (`NumbersTree`), and the nodes below the document
node are all handles but its own (`descendants_ofForest`).
-/

namespace WordFields.Document

variable {d : Document}

/-- The handles that a document has and an earlier one had not. -/
def newHandles (d d' : Document) : List NodeId :=
  List.range' d.size (d'.size - d.size)

lemma mem_newHandles {d d' : Document} {id : Nat} :
    id ∈ newHandles d d' ↔ d.size ≤ id ∧ id < d'.size := by
  rw [newHandles, List.mem_range'_1]
  omega

lemma newHandles_append {d d' d'' : Document} (h : d.size ≤ d'.size) (h' : d'.size ≤ d''.size) :
    newHandles d d' ++ newHandles d' d'' = newHandles d d'' := by
  have hmiddle : d'.size = d.size + 1 * (d'.size - d.size) := by omega
  rw [newHandles, newHandles, newHandles]
  nth_rewrite 2 [hmiddle]
  rw [List.range'_append]
  congr 1
  omega

/-- The walk over a tree that is added lists the new handles. -/
def NumbersTree (tree : Tree) : Prop :=
  ∀ (d : Document) (top : NodeId), d.WellFormed → top < d.size →
    Listing (d.addTree top tree) [d.size] (newHandles d (d.addTree top tree))

lemma listing_addForest {trees : List Tree} (htrees : ∀ tree ∈ trees, NumbersTree tree)
    (h : d.WellFormed) {top : NodeId} (htop : top < d.size) :
    ∃ new, Grown d (d.addForest top trees) top new ∧
      Listing (d.addForest top trees) new (newHandles d (d.addForest top trees)) := by
  induction trees generalizing d with
  | nil =>
    refine ⟨[], .refl h, ?_⟩
    rw [addForest, newHandles, Nat.sub_self]
    exact .nil
  | cons tree trees ih =>
    obtain ⟨hfirst, hsecond⟩ := List.forall_mem_cons.1 htrees
    obtain ⟨hgrown, -, -⟩ := addsTree tree d top h htop
    obtain ⟨new, hrest, hlisting⟩ :=
      ih hsecond hgrown.wellFormed (Nat.lt_of_lt_of_le htop hgrown.size_le)
    refine ⟨d.size :: new, hgrown.trans hrest, ?_⟩
    rw [addForest, ← newHandles_append hgrown.size_le hrest.size_le]
    -- what is added behind a tree is not below it
    refine ((hfirst d top h htop).congr fun id hid => ?_).append hlisting
    obtain ⟨hle, hlt⟩ := mem_newHandles.1 hid
    have hne : id ≠ top := Nat.ne_of_gt (Nat.lt_of_lt_of_le htop hle)
    rw [hrest.children_eq id hlt, if_neg hne, List.append_nil]

lemma numbersTree (tree : Tree) : NumbersTree tree := by
  induction tree using Tree.induct with
  | node kind trees ih =>
    intro d top h htop
    obtain ⟨hgrown, -, hchildren, hlt⟩ := grown_appendNew h htop kind
    obtain ⟨new, hforest, hlisting⟩ := listing_addForest ih hgrown.wellFormed hlt
    have hbelow := hforest.children_eq d.size hlt
    rw [hchildren, if_pos rfl, List.nil_append] at hbelow
    have hself : newHandles d (d.appendNew top kind).2 = [d.size] := by
      rw [newHandles, size_appendNew, Nat.add_sub_cancel_left]
      rfl
    rw [addTree, ← newHandles_append hgrown.size_le hforest.size_le, hself]
    refine .cons ?_
    rwa [hbelow, List.append_nil]

/-- The order in which nodes are made is document order. -/
theorem descendants_ofForest (trees : List Tree) :
    (ofForest trees).descendants root = List.range' 1 ((ofForest trees).size - 1) := by
  have hroot : root < Document.empty.size := Nat.zero_lt_one
  have htrees : ∀ tree ∈ trees, NumbersTree tree := fun tree _ => numbersTree tree
  obtain ⟨new, hgrown, hlisting⟩ := listing_addForest htrees wellFormed_empty hroot
  have hchildren : (ofForest trees).children root = new := hgrown.children_eq root hroot
  have hdescendants := (displays_ofForest trees).wellFormed.listing_descendants root
  rw [hchildren] at hdescendants
  exact hdescendants.unique hlisting

/-- Every node is in the tree of the document node. -/
lemma mem_descendants_ofForest {trees : List Tree} {id : Nat} (hid : id ≠ root)
    (hlt : id < (ofForest trees).size) : id ∈ (ofForest trees).descendants root := by
  have hpos : 1 ≤ id := Nat.pos_of_ne_zero hid
  rw [descendants_ofForest, List.mem_range'_1]
  omega

end WordFields.Document
