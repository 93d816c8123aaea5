import Mathlib.Data.List.Forall2
import WordFields.Proofs.Tree.Edit

/-!
# The shape of a document

A `Tree` is what a document shows when handles are forgotten: kinds of nodes and the trees below
them.  `Document.Shows` says that a node and everything below it have the shape of a tree, and
`Document.Displays` that a whole document does.  Statements about documents of some form are made
for every document that displays a tree of this form, whatever its handles and whatever detached
nodes are left in its store.

Every list of trees is displayed by some document: `displays_ofForest` adds the nodes one by one.
-/

namespace WordFields

/-- A node of some kind with the trees below it. -/
inductive Tree where
  | node (kind : NodeKind) (trees : List Tree)

/-- Induction over a tree and all trees below it. -/
theorem Tree.induct {motive : Tree → Prop}
    (node : ∀ kind trees, (∀ tree ∈ trees, motive tree) → motive (.node kind trees)) (tree : Tree) :
    motive tree := by
  cases tree with
  | node kind trees => exact node kind trees fun tree htree => Tree.induct node tree
termination_by sizeOf tree
decreasing_by
  subst_vars
  have hlt := List.sizeOf_lt_of_mem htree
  simp only [Tree.node.sizeOf_spec]
  omega

mutual

/-- How many nodes are on the longest way down through a tree. -/
def Tree.height : Tree → Nat
  | .node _ trees => forestHeight trees + 1

/-- The height of the highest tree of a list. -/
def forestHeight : List Tree → Nat
  | [] => 0
  | tree :: trees => max tree.height (forestHeight trees)

end

lemma forestHeight_le_iff {trees : List Tree} {n : Nat} :
    forestHeight trees ≤ n ↔ ∀ tree ∈ trees, tree.height ≤ n := by
  induction trees with
  | nil => simp [forestHeight]
  | cons tree trees ih => simp [forestHeight, ih]

lemma Tree.height_lt {kind : NodeKind} {trees : List Tree} {tree : Tree} (h : tree ∈ trees) :
    tree.height < (Tree.node kind trees).height :=
  Nat.lt_succ_of_le (forestHeight_le_iff.1 (Nat.le_refl _) tree h)

/-- A bound on the height of a tree leaves a level for its top. -/
lemma Tree.exists_succ_of_height_le {tree : Tree} {n : Nat} (h : tree.height ≤ n) :
    ∃ m, n = m + 1 := by
  refine Nat.exists_eq_succ_of_ne_zero fun hzero => ?_
  cases tree with
  | node kind trees => simp [hzero, Tree.height] at h

namespace Document

variable {d d' : Document}

/-- A node and everything below it have the shape of a tree. -/
inductive Shows (d : Document) : NodeId → Tree → Prop where
  | intro {id : NodeId} {kind : NodeKind} {trees : List Tree} (ofKind : d.kind id = kind)
      (below : List.Forall₂ (Shows d) (d.children id) trees) : Shows d id (.node kind trees)

/-- Every node of a well-formed document shows a tree. -/
theorem WellFormed.exists_shows (h : d.WellFormed) (id : NodeId) : ∃ tree, d.Shows id tree := by
  have hchildren : ∀ child ∈ d.children id, ∃ tree, d.Shows child tree :=
    fun child _ => exists_shows h child
  have hinhabited : Nonempty Tree := ⟨.node .document []⟩
  choose! tree htree using hchildren
  exact ⟨.node (d.kind id) ((d.children id).map tree),
    .intro rfl (List.forall₂_map_right_iff.2 (List.forall₂_same.2 htree))⟩
termination_by d.size - d.level id
decreasing_by
  have hlt := h.level_lt_of_mem ‹_›
  have hle := d.level_le_size child
  omega

/-- A well-formed document whose document node has trees of the given shapes below it. -/
structure Displays (d : Document) (trees : List Tree) : Prop where
  wellFormed : d.WellFormed
  shows_root : d.Shows root (.node .document trees)

namespace Shows

lemma kind_eq {id : NodeId} {kind : NodeKind} {trees : List Tree}
    (h : d.Shows id (.node kind trees)) : d.kind id = kind := by
  cases h with
  | intro ofKind _ => exact ofKind

lemma forest {id : NodeId} {kind : NodeKind} {trees : List Tree}
    (h : d.Shows id (.node kind trees)) : List.Forall₂ d.Shows (d.children id) trees := by
  cases h with
  | intro _ below => exact below

lemma children_nil {id : NodeId} {kind : NodeKind} (h : d.Shows id (.node kind [])) :
    d.children id = [] :=
  List.forall₂_nil_right_iff.1 h.forest

/-- A node above a single tree has a single child. -/
lemma only_child {id : NodeId} {kind : NodeKind} {tree : Tree} (h : d.Shows id (.node kind [tree])) :
    ∃ child, d.children id = [child] ∧ d.Shows child tree := by
  obtain ⟨child, rest, hchild, hrest, hchildren⟩ := List.forall₂_cons_right_iff.1 h.forest
  rw [List.forall₂_nil_right_iff.1 hrest] at hchildren
  exact ⟨child, hchildren, hchild⟩

/-- A node shows one tree only. -/
lemma unique {id : NodeId} {tree tree' : Tree} (h : d.Shows id tree)
    (h' : d.Shows id tree') : tree = tree' := by
  induction tree using Tree.induct generalizing id tree' with
  | node kind trees ih =>
    obtain ⟨kind', trees'⟩ := tree'
    obtain rfl : kind = kind' := h.kind_eq.symm.trans h'.kind_eq
    congr 1
    refine List.ext_get (h.forest.length_eq.symm.trans h'.forest.length_eq) fun i hi hi' => ?_
    have hchild : i < (d.children id).length := h.forest.length_eq.symm ▸ hi
    exact ih _ (List.get_mem trees ⟨i, hi⟩) (h.forest.get hchild hi) (h'.forest.get hchild hi')

/-- No way down is longer than the store: the nodes on it show trees of different heights. -/
lemma height_le {id : NodeId} {tree : Tree} (h : d.Shows id tree) {above : List NodeId}
    (hnodup : above.Nodup) (habove : ∀ x ∈ above, x < d.size)
    (hheight : ∀ x ∈ above, ∀ other, d.Shows x other → tree.height < other.height) :
    tree.height + above.length ≤ d.size + 1 := by
  induction tree using Tree.induct generalizing id above with
  | node kind trees ih =>
    have hlength : above.length ≤ d.size := by
      simpa using (hnodup.subperm fun x hx => List.mem_range.2 (habove x hx)).length_le
    suffices forestHeight trees ≤ d.size - above.length by
      rw [Tree.height]
      omega
    refine forestHeight_le_iff.2 fun tree htree => ?_
    obtain ⟨child, hchild, hshows⟩ : ∃ child ∈ d.children id, d.Shows child tree := by
      obtain ⟨i, rfl⟩ := List.get_of_mem htree
      have hchild : i < (d.children id).length := h.forest.length_eq.symm ▸ i.isLt
      exact ⟨_, List.get_mem _ ⟨i, hchild⟩, h.forest.get hchild i.isLt⟩
    have hnot : id ∉ above := fun hmem =>
      absurd (hheight id hmem _ h) (Nat.lt_irrefl _)
    have hle := ih tree htree hshows (List.nodup_cons.2 ⟨hnot, hnodup⟩)
      (List.forall_mem_cons.2 ⟨lt_size_of_mem_children hchild, habove⟩)
      (List.forall_mem_cons.2 ⟨fun other hother => ?_, fun x hx other hother => ?_⟩)
    · rw [List.length_cons] at hle
      omega
    · rw [← h.unique hother]
      exact Tree.height_lt htree
    · exact (Tree.height_lt htree).trans (hheight x hx other hother)

/-- The shape of a node only depends on the kinds and the children of the nodes below it. -/
lemma congr (hd : d.WellFormed) {tree : Tree} {id : NodeId} (h : d.Shows id tree)
    (hkind : ∀ x, x = id ∨ d.Below id x → d'.kind x = d.kind x)
    (hchildren : ∀ x, x = id ∨ d.Below id x → d'.children x = d.children x) :
    d'.Shows id tree := by
  induction tree using Tree.induct generalizing id with
  | node kind trees ih =>
    refine .intro ((hkind id (.inl rfl)).trans h.kind_eq) ?_
    rw [hchildren id (.inl rfl)]
    refine List.forall₂_iff_zip.2 ⟨h.forest.length_eq, fun {child tree} hmem => ?_⟩
    obtain ⟨hchild, htree⟩ := List.of_mem_zip hmem
    have hbelow : ∀ x, x = child ∨ d.Below child x → d.Below id x := by
      have hparent := below_of_parent (hd.parent_of_mem hchild)
      rintro x (rfl | hx)
      · exact hparent
      · exact hparent.trans hx
    exact ih tree htree (List.forall₂_zip h.forest hmem)
      (fun x hx => hkind x (.inr (hbelow x hx))) fun x hx => hchildren x (.inr (hbelow x hx))

end Shows

/-! ## Documents of a given shape -/

mutual

/-- Adds a tree below a node. -/
def addTree (d : Document) (top : NodeId) : Tree → Document
  | .node kind trees => addForest (d.appendNew top kind).2 d.size trees

/-- Adds trees below a node, one behind the other. -/
def addForest (d : Document) (top : NodeId) : List Tree → Document
  | [] => d
  | tree :: trees => addForest (addTree d top tree) top trees

end

/-- The document with the given trees below its document node. -/
def ofForest (trees : List Tree) : Document :=
  Document.empty.addForest root trees

/-- A document that came from another by adding the given new children below one node. -/
structure Grown (d d' : Document) (top : NodeId) (new : List NodeId) : Prop where
  wellFormed : d'.WellFormed
  size_le : d.size ≤ d'.size
  kind_eq : ∀ x, x < d.size → d'.kind x = d.kind x
  parent_eq : ∀ x, x < d.size → d'.parent x = d.parent x
  children_eq : ∀ x, x < d.size → d'.children x = d.children x ++ if x = top then new else []

namespace Grown

variable {top : NodeId} {new new' : List NodeId}

lemma refl (h : d.WellFormed) : Grown d d top [] where
  wellFormed := h
  size_le := Nat.le_refl _
  kind_eq _ _ := rfl
  parent_eq _ _ := rfl
  children_eq x _ := by simp

lemma trans {d'' : Document} (h : Grown d d' top new) (h' : Grown d' d'' top new') :
    Grown d d'' top (new ++ new') where
  wellFormed := h'.wellFormed
  size_le := Nat.le_trans h.size_le h'.size_le
  kind_eq x hx := (h'.kind_eq x (Nat.lt_of_lt_of_le hx h.size_le)).trans (h.kind_eq x hx)
  parent_eq x hx := (h'.parent_eq x (Nat.lt_of_lt_of_le hx h.size_le)).trans (h.parent_eq x hx)
  children_eq x hx := by
    rw [h'.children_eq x (Nat.lt_of_lt_of_le hx h.size_le), h.children_eq x hx, List.append_assoc]
    split <;> simp

/-- Children that are added below a new node do not concern the nodes that were there before. -/
lemma below_new {d'' : Document} {id : NodeId} (h : Grown d d' top new) (hid : d.size ≤ id)
    (h' : Grown d' d'' id new') : Grown d d'' top new where
  wellFormed := h'.wellFormed
  size_le := Nat.le_trans h.size_le h'.size_le
  kind_eq x hx := (h'.kind_eq x (Nat.lt_of_lt_of_le hx h.size_le)).trans (h.kind_eq x hx)
  parent_eq x hx := (h'.parent_eq x (Nat.lt_of_lt_of_le hx h.size_le)).trans (h.parent_eq x hx)
  children_eq x hx := by
    rw [h'.children_eq x (Nat.lt_of_lt_of_le hx h.size_le),
      if_neg (Nat.ne_of_lt (Nat.lt_of_lt_of_le hx hid)), List.append_nil, h.children_eq x hx]

/-- A tree stays as it is when children are added elsewhere. -/
lemma shows_of_shows (h : Grown d d' top new) (hd : d.WellFormed) {id : NodeId} {tree : Tree}
    (hid : id < d.size) (htop : top ≠ id) (hapart : ¬ d.Below id top) (hshows : d.Shows id tree) :
    d'.Shows id tree := by
  have hplace : ∀ x, x = id ∨ d.Below id x → x < d.size ∧ x ≠ top := by
    rintro x (rfl | hx)
    · exact ⟨hid, htop.symm⟩
    · obtain ⟨parent, hparent, -⟩ := Relation.TransGen.head'_iff.1 hx
      exact ⟨hd.child_lt_size (hd.mem_of_parent hparent), fun heq => hapart (heq ▸ hx)⟩
  refine hshows.congr hd (fun x hx => h.kind_eq x (hplace x hx).1) fun x hx => ?_
  rw [h.children_eq x (hplace x hx).1, if_neg (hplace x hx).2, List.append_nil]

end Grown

lemma grown_appendNew (h : d.WellFormed) {top : NodeId} (htop : top < d.size) (kind : NodeKind) :
    Grown d (d.appendNew top kind).2 top [d.size] ∧
      (d.appendNew top kind).2.kind d.size = kind ∧
      (d.appendNew top kind).2.children d.size = [] ∧
      d.size < (d.appendNew top kind).2.size := by
  refine ⟨⟨h.appendNew htop kind, by simp, fun x hx => ?_, fun x hx => ?_, fun x _ => ?_⟩, ?_, ?_,
    by simp⟩
  · rw [kind_appendNew, if_neg (Nat.ne_of_lt hx)]
  · rw [parent_appendNew, if_neg (Nat.ne_of_lt hx)]
  · exact h.children_appendNew htop kind x
  · rw [kind_appendNew, if_pos rfl]
  · rw [h.children_appendNew htop, children_of_size_le (Nat.le_refl _),
      if_neg (Nat.ne_of_gt htop), List.append_nil]

/-- What adding a tree does; the same for each tree of a forest gives it for the forest. -/
def AddsTree (tree : Tree) : Prop :=
  ∀ (d : Document) (top : NodeId), d.WellFormed → top < d.size →
    Grown d (d.addTree top tree) top [d.size] ∧ (d.addTree top tree).Shows d.size tree ∧
      d.size < (d.addTree top tree).size

lemma grown_addForest {trees : List Tree} (htrees : ∀ tree ∈ trees, AddsTree tree)
    (h : d.WellFormed) {top : NodeId} (htop : top < d.size) :
    ∃ new, Grown d (d.addForest top trees) top new ∧
      List.Forall₂ (d.addForest top trees).Shows new trees := by
  induction trees generalizing d with
  | nil => exact ⟨[], .refl h, .nil⟩
  | cons tree trees ih =>
    obtain ⟨hgrown, hshows, hlt⟩ := htrees tree List.mem_cons_self d top h htop
    have hwf := hgrown.wellFormed
    have htop' : top < (d.addTree top tree).size := Nat.lt_of_lt_of_le htop hgrown.size_le
    obtain ⟨new, hrest, hforest⟩ :=
      ih (fun tree htree => htrees tree (List.mem_cons_of_mem _ htree)) hwf htop'
    have hparent : (d.addTree top tree).parent d.size = some top := by
      apply hwf.parent_of_mem
      rw [hgrown.children_eq top htop, if_pos rfl]
      simp
    have hapart : ¬ (d.addTree top tree).Below d.size top := fun hbelow =>
      hwf.acyclic _ (hbelow.trans (below_of_parent hparent))
    refine ⟨d.size :: new, hgrown.trans hrest, ?_⟩
    exact .cons (hrest.shows_of_shows hwf hlt (Nat.ne_of_lt htop) hapart hshows) hforest

lemma addsTree (tree : Tree) : AddsTree tree := by
  induction tree using Tree.induct with
  | node kind trees ih =>
    intro d top h htop
    obtain ⟨hgrown, hkind, hchildren, hlt⟩ := grown_appendNew h htop kind
    obtain ⟨new, hforest, hshows⟩ := grown_addForest ih hgrown.wellFormed hlt
    rw [addTree]
    refine ⟨hgrown.below_new (Nat.le_refl _) hforest, .intro ?_ ?_,
      Nat.lt_of_lt_of_le hlt hforest.size_le⟩
    · rw [hforest.kind_eq _ hlt, hkind]
    · rw [hforest.children_eq _ hlt, hchildren, if_pos rfl, List.nil_append]
      exact hshows

lemma wellFormed_empty : Document.empty.WellFormed := by
  have hnode : ∀ x, Document.empty.node x = Node.loose .document := by
    intro x
    by_cases hx : x = 0
    · subst hx
      rfl
    · exact node_of_size_le (Nat.one_le_iff_ne_zero.2 hx)
  have hchildren : ∀ x, Document.empty.children x = [] := fun x => by
    rw [children, hnode]
    rfl
  have hparent : ∀ x, Document.empty.parent x = none := fun x => by
    rw [parent, hnode]
    rfl
  constructor
  · intro id child hchild
    simp [hchildren] at hchild
  · intro id child hchild
    simp [hparent] at hchild
  · intro id
    simp [hchildren]
  · intro id child hchild
    simp [hchildren] at hchild
  · intro id hbelow
    obtain ⟨parent, hstep, -⟩ := Relation.TransGen.head'_iff.1 hbelow
    simp [hparent] at hstep

lemma grown_ofForest (trees : List Tree) :
    ∃ new, Grown Document.empty (ofForest trees) root new ∧
      List.Forall₂ (ofForest trees).Shows new trees :=
  grown_addForest (fun tree _ => addsTree tree) wellFormed_empty Nat.zero_lt_one

/-- Trees of any shape are displayed by a document. -/
theorem displays_ofForest (trees : List Tree) : (ofForest trees).Displays trees := by
  have hroot : root < Document.empty.size := Nat.zero_lt_one
  obtain ⟨new, hgrown, hshows⟩ := grown_ofForest trees
  refine ⟨hgrown.wellFormed, .intro (hgrown.kind_eq root hroot) ?_⟩
  have hchildren := hgrown.children_eq root hroot
  rw [if_pos rfl] at hchildren
  rw [hchildren]
  exact hshows

lemma root_lt_size_ofForest (trees : List Tree) : root < (ofForest trees).size := by
  obtain ⟨new, hgrown, -⟩ := grown_ofForest trees
  exact Nat.lt_of_lt_of_le Nat.zero_lt_one hgrown.size_le

/-- Nothing is above the document node. -/
lemma parent_root_ofForest (trees : List Tree) : (ofForest trees).parent root = none := by
  obtain ⟨new, hgrown, -⟩ := grown_ofForest trees
  exact hgrown.parent_eq root Nat.zero_lt_one

end Document

end WordFields
