import Mathlib.Data.List.Flatten
import WordFields.Proofs.Tree.WellFormed

/-!
# Document order

The nodes of a tree are listed in document order, each before what is below it and what is below one
sibling before the next one.  `Document.Precedes` says that one node comes before another in such a
list, that of any node above both: in a well-formed document it does not matter which one is taken
(`WellFormed.precedes_iff`), so this is a strict order on every tree of a document, whether the tree
is attached or not.
-/

namespace WordFields

open scoped List

/-! ## Pairs in a list without repetition -/

section

variable {α : Type} {l l' : List α} {a b c : α}

lemma pair_sublist_trans (hl : l.Nodup) (h : [a, b] <+ l) (h' : [b, c] <+ l) : [a, c] <+ l := by
  obtain ⟨front, back, rfl, ha, hb⟩ := List.cons_sublist_iff.1 h
  rw [List.singleton_sublist] at hb
  obtain ⟨l₁, l₂, heq, h₁, h₂⟩ := List.sublist_append_iff.1 h'
  have hc : c ∈ back := by
    cases l₁ with
    | nil =>
      rw [List.nil_append] at heq
      exact h₂.subset (by simp [← heq])
    | cons x l₁ =>
      obtain ⟨rfl, -⟩ := List.cons.inj heq
      exact absurd hb ((List.nodup_append'.1 hl).2.2 (h₁.subset List.mem_cons_self))
  exact (List.singleton_sublist.2 ha).append (List.singleton_sublist.2 hc)

lemma not_pair_sublist_symm (hl : l.Nodup) (h : [a, b] <+ l) : ¬ [b, a] <+ l :=
  fun h' => List.nodup_iff_sublist.1 hl a (pair_sublist_trans hl h h')

lemma pair_sublist_or (ha : a ∈ l) (hb : b ∈ l) (hne : a ≠ b) : [a, b] <+ l ∨ [b, a] <+ l := by
  obtain ⟨front, back, rfl⟩ := List.append_of_mem ha
  rcases List.mem_append.1 hb with hb | hb
  · right
    exact (List.singleton_sublist.2 hb).append (List.singleton_sublist.2 List.mem_cons_self)
  · left
    have hback : b ∈ back := (List.mem_cons.1 hb).resolve_left (Ne.symm hne)
    exact ((List.singleton_sublist.2 hback).cons_cons a).trans (List.sublist_append_right front _)

/-- What comes before a member of a list is in the part of the list before it. -/
lemma pair_sublist_middle_iff (hl : (l ++ b :: l').Nodup) : [a, b] <+ l ++ b :: l' ↔ a ∈ l := by
  constructor
  · intro h
    have hne : a ≠ b := by
      rintro rfl
      exact List.nodup_iff_sublist.1 hl a h
    have ha : a ∈ l ++ b :: l' := h.subset List.mem_cons_self
    refine (List.mem_append.1 ha).resolve_right fun hbehind => ?_
    have hback : a ∈ l' := (List.mem_cons.1 hbehind).resolve_left hne
    have hba : [b, a] <+ l ++ b :: l' :=
      ((List.singleton_sublist.2 hback).cons_cons b).trans (List.sublist_append_right l _)
    exact not_pair_sublist_symm hl h hba
  · intro ha
    exact (List.singleton_sublist.2 ha).append (List.singleton_sublist.2 List.mem_cons_self)

/-- What comes behind a member of a list is in the part of the list behind it. -/
lemma pair_sublist_middle_iff' (hl : (l ++ a :: l').Nodup) : [a, b] <+ l ++ a :: l' ↔ b ∈ l' := by
  have hreverse : (l'.reverse ++ a :: l.reverse).Nodup := by
    have heq : l'.reverse ++ a :: l.reverse = (l ++ a :: l').reverse := by simp
    rw [heq]
    exact List.nodup_reverse.2 hl
  have hiff := pair_sublist_middle_iff (a := b) hreverse
  rw [List.mem_reverse] at hiff
  rw [← hiff, ← List.reverse_sublist]
  simp

/-- The first result for the members of a list is that of a member before which there is none. -/
lemma findSome?_eq_some_iff_of_nodup {β : Type} (hl : l.Nodup) {f : α → Option β} {result : β} :
    l.findSome? f = some result ↔
      ∃ x ∈ l, f x = some result ∧ ∀ y ∈ l, [y, x] <+ l → f y = none := by
  rw [List.findSome?_eq_some_iff]
  constructor
  · rintro ⟨front, x, back, rfl, hx, hfront⟩
    refine ⟨x, by simp, hx, fun y _ hyx => hfront y ((pair_sublist_middle_iff hl).1 hyx)⟩
  · rintro ⟨x, hmem, hx, hnone⟩
    obtain ⟨front, back, rfl⟩ := List.append_of_mem hmem
    refine ⟨front, x, back, rfl, hx, fun y hy => ?_⟩
    exact hnone y (List.mem_append_left _ hy) ((pair_sublist_middle_iff hl).2 hy)

/-- Two members of a part of a list are in the same order in both. -/
lemma pair_sublist_iff_of_sublist (hl' : l'.Nodup) (h : l <+ l') (ha : a ∈ l) (hb : b ∈ l) :
    [a, b] <+ l ↔ [a, b] <+ l' := by
  refine ⟨fun hab => hab.trans h, fun hab => ?_⟩
  have hne : a ≠ b := by
    rintro rfl
    exact List.nodup_iff_sublist.1 hl' a hab
  refine (pair_sublist_or ha hb hne).resolve_right fun hba => ?_
  exact not_pair_sublist_symm hl' hab (hba.trans h)

end

namespace Document

variable {d : Document}

/-- Whether a node comes before another among the nodes below some node, in document order. -/
def Precedes (d : Document) (x y : NodeId) : Prop :=
  ∃ top, [x, y] <+ d.descendants top

namespace WellFormed

lemma cons_descendants_sublist (hd : d.WellFormed) {parent id : NodeId}
    (h : d.parent id = some parent) : id :: d.descendants id <+ d.descendants parent := by
  rw [hd.descendants_eq_flatMap parent]
  have hmem : id :: d.descendants id ∈
      (d.children parent).map fun child => child :: d.descendants child :=
    List.mem_map_of_mem (hd.mem_of_parent h)
  exact List.sublist_flatten_of_mem hmem

lemma descendants_sublist (hd : d.WellFormed) {top id : NodeId} (h : d.Below top id) :
    d.descendants id <+ d.descendants top := by
  induction h with
  | single hparent => exact (List.sublist_cons_self _ _).trans (hd.cons_descendants_sublist hparent)
  | tail _ hparent ih =>
    exact ih.trans ((List.sublist_cons_self _ _).trans (hd.cons_descendants_sublist hparent))

/-- The order of two nodes is the same wherever it is looked up. -/
theorem precedes_iff (hd : d.WellFormed) {top x y : NodeId} (hx : d.Below top x)
    (hy : d.Below top y) : d.Precedes x y ↔ [x, y] <+ d.descendants top := by
  refine ⟨?_, fun h => ⟨top, h⟩⟩
  rintro ⟨top', h⟩
  have hx' : x ∈ d.descendants top' := h.subset List.mem_cons_self
  have hy' : y ∈ d.descendants top' := h.subset (by simp)
  rcases hx.comparable (hd.mem_descendants.1 hx') with rfl | hbelow | hbelow
  · exact h
  · exact h.trans (hd.descendants_sublist hbelow)
  · exact (pair_sublist_iff_of_sublist (hd.nodup_descendants top')
      (hd.descendants_sublist hbelow) (hd.mem_descendants.2 hx) (hd.mem_descendants.2 hy)).2 h

end WellFormed

namespace Precedes

variable {x y z : NodeId}

lemma below (hd : d.WellFormed) (h : d.Precedes x y) : ∃ top, d.Below top x ∧ d.Below top y := by
  obtain ⟨top, h⟩ := h
  exact ⟨top, hd.mem_descendants.1 (h.subset List.mem_cons_self),
    hd.mem_descendants.1 (h.subset (by simp))⟩

lemma trans (hd : d.WellFormed) (h : d.Precedes x y) (h' : d.Precedes y z) : d.Precedes x z := by
  obtain ⟨top, hx, hy⟩ := h.below hd
  obtain ⟨top', hy', hz⟩ := h'.below hd
  -- one of the two nodes is above all three
  obtain ⟨whole, hx, hy, hz⟩ : ∃ whole, d.Below whole x ∧ d.Below whole y ∧ d.Below whole z := by
    rcases hy.comparable hy' with rfl | hbelow | hbelow
    · exact ⟨top, hx, hy, hz⟩
    · exact ⟨top, hx, hy, hbelow.trans hz⟩
    · exact ⟨top', hbelow.trans hx, hy', hz⟩
  rw [hd.precedes_iff hx hy] at h
  rw [hd.precedes_iff hy hz] at h'
  exact ⟨whole, pair_sublist_trans (hd.nodup_descendants whole) h h'⟩

lemma asymm (hd : d.WellFormed) (h : d.Precedes x y) : ¬ d.Precedes y x := by
  intro h'
  obtain ⟨top, hx, hy⟩ := h.below hd
  rw [hd.precedes_iff hx hy] at h
  rw [hd.precedes_iff hy hx] at h'
  exact not_pair_sublist_symm (hd.nodup_descendants top) h h'

/-- What is in one child comes before what is in a later one. -/
lemma of_siblings (hd : d.WellFormed) {parent child later : NodeId}
    (h : [child, later] <+ d.children parent) (hx : x = child ∨ d.Below child x)
    (hy : y = later ∨ d.Below later y) : d.Precedes x y := by
  have hmem : ∀ {top id : NodeId}, id = top ∨ d.Below top id →
      [id] <+ top :: d.descendants top := by
    intro top id hid
    rw [List.singleton_sublist, List.mem_cons, hd.mem_descendants]
    exact hid
  refine ⟨parent, ?_⟩
  rw [hd.descendants_eq_flatMap]
  refine List.Sublist.trans ?_ (h.flatMap fun child => child :: d.descendants child)
  rw [List.flatMap_cons, List.flatMap_singleton]
  exact (hmem hx).append (hmem hy)

end Precedes

end Document

end WordFields
