import WordFields.Markup.Printer
import WordFields.Proofs.Tree.Shape
import WordFields.Proofs.Word.Likeness
import WordFields.Proofs.Word.Sheet

/-!
# Documents that display the same trees

Two documents that display the same trees differ in their handles only.  They are written alike
(`Displays.toMarkup_eq`).  `Document.Twins` relates the nodes at the same place of the two, and since
it goes along with every way (`Twins.alike`), the fields of the one are those of the other.
-/

namespace WordFields

namespace Document

variable {d d' : Document}

/-- Nodes that show the same tree are written alike, if the bounds on the depth are not reached. -/
lemma Shows.nodeMarkup_eq {tree : Tree} {x x' : NodeId} (h : d.Shows x tree)
    (h' : d'.Shows x' tree) {depth depth' : Nat} (hdepth : tree.height ≤ depth)
    (hdepth' : tree.height ≤ depth') : d'.nodeMarkup depth' x' = d.nodeMarkup depth x := by
  induction tree using Tree.induct generalizing x x' depth depth' with
  | node kind trees ih =>
    obtain ⟨depth, rfl⟩ := Tree.exists_succ_of_height_le hdepth
    obtain ⟨depth', rfl⟩ := Tree.exists_succ_of_height_le hdepth'
    have hchildren : List.Forall₂ (fun child child' =>
        d'.nodeMarkup depth' child' = d.nodeMarkup depth child) (d.children x) (d'.children x') := by
      refine List.forall₂_iff_get.2
        ⟨h.forest.length_eq.trans h'.forest.length_eq.symm, fun i hi hi' => ?_⟩
      have htree : i < trees.length := h.forest.length_eq ▸ hi
      have hheight : (trees.get ⟨i, htree⟩).height < (Tree.node kind trees).height :=
        Tree.height_lt (List.get_mem trees ⟨i, htree⟩)
      exact ih _ (List.get_mem trees ⟨i, htree⟩) (h.forest.get hi htree) (h'.forest.get hi' htree)
        (by omega) (by omega)
    rw [nodeMarkup, nodeMarkup, h.kind_eq, h'.kind_eq, rel_isEmpty hchildren,
      flatMap_eq_of_rel hchildren]

/-- Documents that display the same trees are written alike. -/
theorem Displays.toMarkup_eq {trees : List Tree} (h : d.Displays trees) (h' : d'.Displays trees) :
    d'.toMarkup = d.toMarkup := by
  have hheight : ∀ {d : Document}, d.Displays trees →
      (Tree.node .document trees).height ≤ d.size + 1 := fun h =>
    h.shows_root.height_le List.nodup_nil (fun _ hx => nomatch hx) fun _ hx => nomatch hx
  have hchars : ∀ {d : Document}, d.Displays trees → d.toChars = d.nodeMarkup (d.size + 1) root :=
    fun h => by rw [nodeMarkup, h.shows_root.kind_eq, toChars]
  rw [toMarkup, toMarkup, hchars h, hchars h',
    h.shows_root.nodeMarkup_eq h'.shows_root (hheight h) (hheight h')]

/-- Nodes at the same place of two documents. -/
inductive Twins (d d' : Document) : NodeId → NodeId → Prop
  | root : Twins d d' root root
  | child {x x' child child' : NodeId} {i : Nat} (above : Twins d d' x x')
      (place : (d.children x)[i]? = some child) (place' : (d'.children x')[i]? = some child') :
    Twins d d' child child'

namespace Twins

variable {x x' : NodeId}

lemma symm (h : Twins d d' x x') : Twins d' d x' x := by
  induction h with
  | root => exact .root
  | child _ place place' ih => exact .child ih place' place

lemma eq_root_or_below (hd : d.WellFormed) (h : Twins d d' x x') :
    x = Document.root ∨ d.Below Document.root x := by
  induction h with
  | root => exact .inl rfl
  | child _ place _ ih =>
    have hparent := below_of_parent (hd.parent_of_mem (List.mem_of_getElem? place))
    rcases ih with rfl | hbelow
    · exact .inr hparent
    · exact .inr (hbelow.trans hparent)

/-- No node has two twins, as the way to it from the document node is the only one. -/
lemma unique (hd : d.WellFormed) {y : NodeId} (h : Twins d d' x x') (h' : Twins d d' x y) :
    x' = y := by
  have hnot : ∀ {x x' : NodeId}, Twins d d' x x' → Document.root ∉ d.children x := by
    intro x x' habove hmem
    have hparent := below_of_parent (hd.parent_of_mem hmem)
    rcases habove.eq_root_or_below hd with rfl | hbelow
    · exact hd.acyclic _ hparent
    · exact hd.acyclic _ (hbelow.trans hparent)
  induction h generalizing y with
  | root =>
    cases h' with
    | root => rfl
    | child above place _ => exact absurd (List.mem_of_getElem? place) (hnot above)
  | @child x x' child child' i above place place' ih =>
    cases h' with
    | root => exact absurd (List.mem_of_getElem? place) (hnot above)
    | @child z z' _ _ j above' other other' =>
      obtain rfl : x = z := Option.some.inj
        ((hd.parent_of_mem (List.mem_of_getElem? place)).symm.trans
          (hd.parent_of_mem (List.mem_of_getElem? other)))
      obtain rfl := ih above'
      obtain ⟨hi, -⟩ := List.getElem?_eq_some_iff.1 place
      obtain rfl : i = j := (List.getElem?_inj hi (hd.nodup_children x)).1 (place.trans other.symm)
      exact Option.some.inj (place'.symm.trans other')

lemma biUnique (hd : d.WellFormed) (hd' : d'.WellFormed) : Relator.BiUnique (Twins d d') :=
  ⟨fun _ _ _ h h' => h.symm.unique hd' h'.symm, fun _ _ _ h h' => h.unique hd h'⟩

section

variable {trees : List Tree} (hd : d.Displays trees) (hd' : d'.Displays trees)

include hd hd'

lemma exists_shows (h : Twins d d' x x') : ∃ tree, d.Shows x tree ∧ d'.Shows x' tree := by
  induction h with
  | root => exact ⟨_, hd.shows_root, hd'.shows_root⟩
  | @child x x' child child' i _ place place' ih =>
    obtain ⟨⟨kind, trees⟩, hshows, hshows'⟩ := ih
    obtain ⟨hi, rfl⟩ := List.getElem?_eq_some_iff.1 place
    obtain ⟨hi', rfl⟩ := List.getElem?_eq_some_iff.1 place'
    have htree : i < trees.length := hshows.forest.length_eq ▸ hi
    exact ⟨trees[i], hshows.forest.get hi htree, hshows'.forest.get hi' htree⟩

lemma kind_eq (h : Twins d d' x x') : d'.kind x' = d.kind x := by
  obtain ⟨⟨kind, trees⟩, hshows, hshows'⟩ := h.exists_shows hd hd'
  rw [hshows.kind_eq, hshows'.kind_eq]

lemma children (h : Twins d d' x x') :
    List.Forall₂ (Twins d d') (d.children x) (d'.children x') := by
  obtain ⟨⟨kind, trees⟩, hshows, hshows'⟩ := h.exists_shows hd hd'
  refine List.forall₂_iff_get.2 ⟨hshows.forest.length_eq.trans hshows'.forest.length_eq.symm, ?_⟩
  intro i hi hi'
  exact .child h (List.getElem?_eq_getElem hi) (List.getElem?_eq_getElem hi')

lemma descendants {x x' : NodeId} (h : Twins d d' x x') :
    List.Forall₂ (Twins d d') (d.descendants x) (d'.descendants x') := by
  have hchildren : List.Forall₂ (fun child child' => child ∈ d.children x ∧ Twins d d' child child')
      (d.children x) (d'.children x') :=
    (List.forall₂_and_left _ _).2 ⟨fun _ hmem => hmem, h.children hd hd'⟩
  rw [hd.wellFormed.descendants_eq_flatMap, hd'.wellFormed.descendants_eq_flatMap]
  refine List.rel_flatMap hchildren fun child child' hchild => ?_
  obtain ⟨hmem, htwins⟩ := hchild
  exact .cons htwins (descendants htwins)
termination_by d.size - d.level x
decreasing_by
  have hlt := hd.wellFormed.level_lt_of_mem ‹_›
  have hle := d.level_le_size child
  omega

/-- The children of a node split where a child is, and those of its twin where the child's twin
is. -/
lemma split {child child' : NodeId} {i : Nat} (h : Twins d d' x x')
    (place : (d.children x)[i]? = some child) (place' : (d'.children x')[i]? = some child') :
    ∃ before after before' after', d.children x = before ++ child :: after ∧
      d'.children x' = before' ++ child' :: after' ∧
        List.Forall₂ (Twins d d') before before' ∧ List.Forall₂ (Twins d d') after after' := by
  have hsplit : ∀ {ids : List NodeId} {id : NodeId}, ids[i]? = some id →
      ids = ids.take i ++ id :: ids.drop (i + 1) := by
    intro ids id hid
    obtain ⟨hi, rfl⟩ := List.getElem?_eq_some_iff.1 hid
    rw [List.getElem_cons_drop, List.take_append_drop]
  have hchildren := h.children hd hd'
  exact ⟨_, _, _, _, hsplit place, hsplit place', List.forall₂_take i hchildren,
    List.forall₂_drop (i + 1) hchildren⟩

lemma textContent_eq (h : Twins d d' x x') : d'.textContent x' = d.textContent x := by
  rw [textContent, textContent, h.kind_eq hd hd']
  split
  · rfl
  · congr 1
    refine filterMap_eq_of_rel ((h.descendants hd hd').imp fun y y' hy => ?_)
    rw [Twins.kind_eq hd hd' hy]

/-- Nodes at the same place are found on the same ways. -/
theorem alike (hroot : d.parent Document.root = none) (hroot' : d'.parent Document.root = none) :
    Alike d d' (Twins d d') := by
  have hbesides : ∀ {x x' : NodeId}, Twins d d' x x' →
      List.Forall₂ (Twins d d') (d.followingSiblings x) (d'.followingSiblings x') ∧
        List.Forall₂ (Twins d d') (d.precedingSiblings x) (d'.precedingSiblings x') := by
    intro x x' h
    cases h with
    | root =>
      simp only [followingSiblings, precedingSiblings, siblingsOf, hroot, hroot']
      exact ⟨.nil, .nil⟩
    | child above place place' =>
      obtain ⟨before, after, before', after', hsplit, hsplit', hbefore, hafter⟩ :=
        above.split hd hd' place place'
      rw [followingSiblings_eq hd.wellFormed hsplit, followingSiblings_eq hd'.wellFormed hsplit',
        precedingSiblings_eq hd.wellFormed hsplit, precedingSiblings_eq hd'.wellFormed hsplit']
      exact ⟨hafter, List.forall₂_reverse_iff.2 hbefore⟩
  have hkind : ∀ {x x' : NodeId}, Twins d d' x x' → d'.kind x' = d.kind x := fun h =>
    h.kind_eq hd hd'
  have hisElement : ∀ x x' : NodeId, Twins d d' x x' → d'.isElement x' = d.isElement x :=
    fun x x' h => by rw [isElement, isElement, hkind h]
  constructor
  · exact biUnique hd.wellFormed hd'.wellFormed
  · exact .root
  · intro x x' h localName
    simp only [isWord, isElementIn, element?, hkind h]
  · intro x x' h
    simp only [fieldMark?, isWord, isElementIn, wordAttribute?, attributeIn?, element?, hkind h]
    rfl
  · exact fun h _ => h.textContent_eq hd hd'
  · exact fun h => rel_filter_of_eq (h.descendants hd hd') hisElement
  · intro x x' h helement
    cases h with
    | root =>
      rw [isElement, hd.shows_root.kind_eq] at helement
      cases helement
    | child above place place' =>
      rw [hd.wellFormed.parent_of_mem (List.mem_of_getElem? place),
        hd'.wellFormed.parent_of_mem (List.mem_of_getElem? place')]
      exact .some above
  · exact fun h _ _ _ => rel_filter_of_eq (hbesides h).1 hisElement
  · exact fun h _ _ _ => rel_filter_of_eq (hbesides h).2 hisElement

end

end Twins

end Document

end WordFields
