import Mathlib.Data.Finset.Card
import Mathlib.Data.List.Nodup
import Mathlib.Logic.Relation
import WordFields.Tree.Document

/-!
# Well-formed documents

The store of a document admits states that are no tree.  `Document.WellFormed` says what a tree is:
the lists of children and the parents agree, no list of children has a node twice, children are in
the store, and no node is below itself.

`Document.walk` lists nodes under a bound on their number.  In a well-formed document the bound is
never reached, so the nodes below a node satisfy the equation `descendants_eq_flatMap` of a
pre-order, have no repetition, and are exactly those whose chain of parents leads to the node.
`Listing` is the walk without its bound; it is what the proofs are about.
-/

namespace WordFields.Document

variable {d : Document}

/-- Whether a node is below another: the chain of its parents leads there in one step or more. -/
def Below (d : Document) (top : NodeId) (id : NodeId) : Prop :=
  Relation.TransGen (fun child parent => d.parent child = some parent) id top

/-- A document whose nodes form a tree, or several of them. -/
structure WellFormed (d : Document) : Prop where
  parent_of_mem : ∀ {id child : NodeId}, child ∈ d.children id → d.parent child = some id
  mem_of_parent : ∀ {id child : NodeId}, d.parent child = some id → child ∈ d.children id
  nodup_children : ∀ id : NodeId, (d.children id).Nodup
  child_lt_size : ∀ {id child : NodeId}, child ∈ d.children id → child < d.size
  acyclic : ∀ id : NodeId, ¬ d.Below id id

/-! ## Nodes below a node -/

lemma below_of_parent {id top : NodeId} (h : d.parent id = some top) : d.Below top id :=
  .single h

lemma Below.trans {top middle id : NodeId} (h₁ : d.Below top middle) (h₂ : d.Below middle id) :
    d.Below top id :=
  Relation.TransGen.trans h₂ h₁

lemma Below.mono {d' : Document} {top id : NodeId} (h : d.Below top id)
    (hparent : ∀ child parent, d.parent child = some parent → d'.parent child = some parent) :
    d'.Below top id :=
  Relation.TransGen.mono hparent _ _ h

/-- What is above a node is its parent or above its parent. -/
lemma Below.of_parent {top id parent : NodeId} (h : d.Below top id)
    (hparent : d.parent id = some parent) : top = parent ∨ d.Below top parent := by
  obtain ⟨next, hnext, hrest⟩ := Relation.TransGen.head'_iff.1 h
  obtain rfl : next = parent := Option.some.inj (hnext.symm.trans hparent)
  rcases Relation.reflTransGen_iff_eq_or_transGen.1 hrest with heq | hbelow
  · exact .inl heq
  · exact .inr hbelow

/-- The nodes above a node are above each other. -/
lemma Below.comparable {top top' id : NodeId} (h : d.Below top id) (h' : d.Below top' id) :
    top = top' ∨ d.Below top top' ∨ d.Below top' top := by
  induction h with
  | single hparent =>
    rcases h'.of_parent hparent with rfl | habove
    · exact .inl rfl
    · exact .inr (.inr habove)
  | @tail middle top _ hparent ih =>
    rcases ih with rfl | hbelow | habove
    · exact .inr (.inl (below_of_parent hparent))
    · exact .inr (.inl ((below_of_parent hparent).trans hbelow))
    · rcases habove.of_parent hparent with rfl | habove
      · exact .inl rfl
      · exact .inr (.inr habove)

/-- A node that is not in the store has no children. -/
lemma lt_size_of_mem_children {id child : NodeId} (h : child ∈ d.children id) : id < d.size := by
  by_contra hge
  have hnode : d.node id = Node.loose .document := by
    rw [node, Array.getElem?_eq_none (Nat.le_of_not_lt hge), Option.getD_none]
  simp [children, hnode, Node.loose] at h

/-- What is asked about nodes with children can be asked about those of the store. -/
lemma forall_of_lt_size {P : NodeId → Prop} (h : ∀ id < d.size, d.children id ≠ [] → P id) :
    ∀ id, d.children id ≠ [] → P id := by
  intro id hid
  obtain ⟨child, hchild⟩ := List.exists_mem_of_ne_nil _ hid
  exact h id (lt_size_of_mem_children hchild) hid

namespace WellFormed

/-- What is below a node is one of its children or below one of them. -/
lemma exists_child_of_below (h : d.WellFormed) {top id : NodeId} (hbelow : d.Below top id) :
    ∃ child ∈ d.children top, child = id ∨ d.Below child id := by
  obtain ⟨child, hpath, hchild⟩ := Relation.TransGen.tail'_iff.1 hbelow
  exact ⟨child, h.mem_of_parent hchild, Relation.reflTransGen_iff_eq_or_transGen.1 hpath⟩

lemma not_below_sibling (h : d.WellFormed) {id child sibling : NodeId}
    (hchild : child ∈ d.children id) (hsibling : sibling ∈ d.children id) :
    ¬ d.Below sibling child := by
  intro hbelow
  rcases hbelow.of_parent (h.parent_of_mem hchild) with rfl | habove
  · exact h.acyclic _ (below_of_parent (h.parent_of_mem hsibling))
  · exact h.acyclic _ ((below_of_parent (h.parent_of_mem hsibling)).trans habove)

/-- The parts of the tree below the children of a node are apart from each other. -/
lemma children_apart (h : d.WellFormed) (id : NodeId) :
    (d.children id).Pairwise fun a b => a ≠ b ∧ ¬ d.Below a b ∧ ¬ d.Below b a := by
  refine (h.nodup_children id).imp_of_mem fun {a b} ha hb hne => ?_
  exact ⟨hne, h.not_below_sibling hb ha, h.not_below_sibling ha hb⟩

end WellFormed

/-! ## Levels

The number of nodes above a node grows on the way down and is bounded by the size of the store, so
an induction can go from a node to its children. -/

open Classical in
/-- The number of nodes above a node. -/
noncomputable def level (d : Document) (id : NodeId) : Nat :=
  ((Finset.range d.size).filter fun top => d.Below top id).card

lemma level_le_size (d : Document) (id : NodeId) : d.level id ≤ d.size := by
  classical
  calc d.level id ≤ (Finset.range d.size).card := Finset.card_filter_le _ _
    _ = d.size := Finset.card_range _

lemma WellFormed.level_lt_of_mem (h : d.WellFormed) {id child : NodeId}
    (hchild : child ∈ d.children id) : d.level id < d.level child := by
  classical
  have hparent : d.Below id child := below_of_parent (h.parent_of_mem hchild)
  apply Finset.card_lt_card
  rw [Finset.ssubset_iff_of_subset]
  · refine ⟨id, ?_, ?_⟩
    · rw [Finset.mem_filter, Finset.mem_range]
      exact ⟨lt_size_of_mem_children hchild, hparent⟩
    · rw [Finset.mem_filter]
      exact fun hmem => h.acyclic id hmem.2
  · intro top htop
    rw [Finset.mem_filter] at htop ⊢
    exact ⟨htop.1, htop.2.trans hparent⟩

/-! ## Listings -/

/-- The walk over pending nodes with everything below them, without a bound on its length. -/
inductive Listing (d : Document) : List NodeId → List NodeId → Prop where
  | nil : Listing d [] []
  | cons {id : NodeId} {pending listed : List NodeId}
      (rest : Listing d (d.children id ++ pending) listed) :
      Listing d (id :: pending) (id :: listed)

namespace Listing

lemma walk_eq {pending listed : List NodeId} {steps : Nat} (h : Listing d pending listed)
    (hsteps : listed.length ≤ steps) : d.walk steps pending = listed := by
  induction h generalizing steps with
  | nil => cases steps <;> rfl
  | @cons id pending listed rest ih =>
    rw [List.length_cons] at hsteps
    obtain ⟨steps', rfl⟩ : ∃ steps', steps = steps' + 1 := ⟨steps - 1, by omega⟩
    rw [walk, ih (by omega)]

/-- A listing only depends on the children of the nodes that are listed. -/
lemma congr {d' : Document} {pending listed : List NodeId} (h : Listing d pending listed)
    (hchildren : ∀ id ∈ listed, d'.children id = d.children id) : Listing d' pending listed := by
  induction h with
  | nil => exact .nil
  | cons rest ih =>
    obtain ⟨hid, hrest⟩ := List.forall_mem_cons.1 hchildren
    refine .cons ?_
    rw [hid]
    exact ih hrest

lemma unique {pending listed listed' : List NodeId} (h : Listing d pending listed)
    (h' : Listing d pending listed') : listed = listed' := by
  induction h generalizing listed' with
  | nil => cases h'; rfl
  | cons rest ih =>
    cases h' with
    | cons rest' => rw [ih rest']

lemma append {pending pending' listed listed' : List NodeId} (h : Listing d pending listed)
    (h' : Listing d pending' listed') : Listing d (pending ++ pending') (listed ++ listed') := by
  induction h with
  | nil => exact h'
  | cons rest ih =>
    rw [List.append_assoc] at ih
    exact .cons ih

/-- Nodes one after the other, each with a listing of what is below it. -/
lemma flatMap {below : NodeId → List NodeId} (pending : List NodeId)
    (h : ∀ id ∈ pending, Listing d (d.children id) (below id)) :
    Listing d pending (pending.flatMap fun id => id :: below id) := by
  induction pending with
  | nil => exact .nil
  | cons id pending ih =>
    have hrest := ih fun id' hid' => h id' (List.mem_cons_of_mem _ hid')
    have hid := h id List.mem_cons_self
    rw [List.flatMap_cons, List.cons_append]
    exact .cons (hid.append hrest)

/-- What is listed is pending or below a pending node. -/
lemma mem_imp (hd : d.WellFormed) {pending listed : List NodeId} (h : Listing d pending listed)
    {id : NodeId} (hid : id ∈ listed) :
    ∃ top ∈ pending, id = top ∨ d.Below top id := by
  induction h with
  | nil => cases hid
  | @cons head pending listed rest ih =>
    rcases List.mem_cons.1 hid with rfl | hid
    · exact ⟨id, List.mem_cons_self, .inl rfl⟩
    · obtain ⟨top, htop, hbelow⟩ := ih hid
      rcases List.mem_append.1 htop with hchild | hpending
      · have habove := below_of_parent (hd.parent_of_mem hchild)
        refine ⟨head, List.mem_cons_self, .inr ?_⟩
        rcases hbelow with rfl | hbelow
        · exact habove
        · exact habove.trans hbelow
      · exact ⟨top, List.mem_cons_of_mem _ hpending, hbelow⟩

lemma subset_listed {pending listed : List NodeId} (h : Listing d pending listed)
    {id : NodeId} (hid : id ∈ pending) : id ∈ listed := by
  induction h with
  | nil => cases hid
  | cons rest ih =>
    rcases List.mem_cons.1 hid with rfl | hid
    · exact List.mem_cons_self
    · exact List.mem_cons_of_mem _ (ih (List.mem_append_right _ hid))

/-- Everything below a listed node is listed. -/
lemma mem_of_below (hd : d.WellFormed) {pending listed : List NodeId} (h : Listing d pending listed)
    {top id : NodeId} (htop : top ∈ listed) (hbelow : d.Below top id) : id ∈ listed := by
  induction h generalizing top with
  | nil => cases htop
  | cons rest ih =>
    rcases List.mem_cons.1 htop with rfl | htop
    · obtain ⟨child, hchild, hplace⟩ := hd.exists_child_of_below hbelow
      have hlisted := rest.subset_listed (List.mem_append_left _ hchild)
      rcases hplace with rfl | hpath
      · exact List.mem_cons_of_mem _ hlisted
      · exact List.mem_cons_of_mem _ (ih hlisted hpath)
    · exact List.mem_cons_of_mem _ (ih htop hbelow)

/-- A listing has no repetition if the pending nodes are in different parts of the tree. -/
lemma nodup (hd : d.WellFormed) {pending listed : List NodeId} (h : Listing d pending listed)
    (hapart : pending.Pairwise fun a b => a ≠ b ∧ ¬ d.Below a b ∧ ¬ d.Below b a) :
    listed.Nodup := by
  induction h with
  | nil => exact List.nodup_nil
  | @cons head pending listed rest ih =>
    obtain ⟨hhead, hpending⟩ := List.pairwise_cons.1 hapart
    have hbelow : ∀ child ∈ d.children head, d.Below head child :=
      fun child hchild => below_of_parent (hd.parent_of_mem hchild)
    refine List.nodup_cons.2 ⟨fun hmem => ?_, ih (List.pairwise_append.2 ⟨?_, hpending, ?_⟩)⟩
    · obtain ⟨top, htop, hplace⟩ := rest.mem_imp hd hmem
      rcases List.mem_append.1 htop with hchild | htop
      · rcases hplace with rfl | hplace
        · exact hd.acyclic _ (hbelow _ hchild)
        · exact hd.acyclic _ ((hbelow _ hchild).trans hplace)
      · obtain ⟨hne, -, hnot⟩ := hhead top htop
        exact hplace.elim hne hnot
    · exact hd.children_apart head
    · intro child hchild other hother
      obtain ⟨hne, hnot, hnot'⟩ := hhead other hother
      refine ⟨?_, fun habove => hnot ((hbelow child hchild).trans habove), fun habove => ?_⟩
      · rintro rfl
        exact hnot (hbelow child hchild)
      · rcases habove.of_parent (hd.parent_of_mem hchild) with rfl | habove
        · exact hne rfl
        · exact hnot' habove

end Listing

namespace WellFormed

lemma exists_listing (h : d.WellFormed) (id : NodeId) :
    ∃ listed, Listing d (d.children id) listed := by
  have hchildren : ∀ child ∈ d.children id, ∃ listed, Listing d (d.children child) listed :=
    fun child hchild => exists_listing h child
  choose! below hbelow using hchildren
  exact ⟨_, Listing.flatMap _ hbelow⟩
termination_by d.size - d.level id
decreasing_by
  have hlt := h.level_lt_of_mem hchild
  have hle := d.level_le_size child
  omega

/-- The bound on the walk is never what ends it: a listing has no repetition, so it is no longer
than the store. -/
lemma listing_descendants (h : d.WellFormed) (id : NodeId) :
    Listing d (d.children id) (d.descendants id) := by
  obtain ⟨listed, hlisting⟩ := h.exists_listing id
  have hnodup : listed.Nodup := hlisting.nodup h (h.children_apart id)
  have hsubset : listed ⊆ List.range d.size := by
    intro x hx
    obtain ⟨top, htop, hplace⟩ := hlisting.mem_imp h hx
    rw [List.mem_range]
    rcases hplace with rfl | hplace
    · exact h.child_lt_size htop
    · obtain ⟨parent, hparent, -⟩ := Relation.TransGen.head'_iff.1 hplace
      exact h.child_lt_size (h.mem_of_parent hparent)
  have hlength : listed.length ≤ d.size := by
    simpa using (hnodup.subperm hsubset).length_le
  rw [descendants, hlisting.walk_eq hlength]
  exact hlisting

/-- The nodes below a node are its children, each with the nodes below it behind it. -/
theorem descendants_eq_flatMap (h : d.WellFormed) (id : NodeId) :
    d.descendants id = (d.children id).flatMap fun child => child :: d.descendants child :=
  (h.listing_descendants id).unique (Listing.flatMap _ fun child _ => h.listing_descendants child)

theorem mem_descendants (h : d.WellFormed) {top id : NodeId} :
    id ∈ d.descendants top ↔ d.Below top id := by
  have hlisting := h.listing_descendants top
  constructor
  · intro hmem
    obtain ⟨child, hchild, hplace⟩ := hlisting.mem_imp h hmem
    have habove := below_of_parent (h.parent_of_mem hchild)
    rcases hplace with rfl | hplace
    · exact habove
    · exact habove.trans hplace
  · intro hbelow
    obtain ⟨child, hchild, hplace⟩ := h.exists_child_of_below hbelow
    have hlisted := hlisting.subset_listed hchild
    rcases hplace with rfl | hpath
    · exact hlisted
    · exact hlisting.mem_of_below h hlisted hpath

/-- What is below a node only depends on the children of the node and of the nodes below it. -/
lemma descendants_congr {d' : Document} (h : d.WellFormed) (h' : d'.WellFormed) {id : NodeId}
    (hchildren : ∀ x, x = id ∨ d.Below id x → d'.children x = d.children x) :
    d'.descendants id = d.descendants id := by
  have hlisting := (h.listing_descendants id).congr fun x hx =>
    hchildren x (.inr (h.mem_descendants.1 hx))
  rw [← hchildren id (.inl rfl)] at hlisting
  exact (h'.listing_descendants id).unique hlisting

theorem nodup_descendants (h : d.WellFormed) (id : NodeId) : (d.descendants id).Nodup :=
  (h.listing_descendants id).nodup h (h.children_apart id)

end WellFormed

end WordFields.Document
