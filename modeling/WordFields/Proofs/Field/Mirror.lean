import WordFields.Field.Marker
import WordFields.Proofs.Tree.Ascent
import WordFields.Proofs.Word.Twin

/-!
# Documents that differ in some texts

Two documents may have the same fields although their handles differ and some of their text elements
hold other texts.  `Document.Mirrors` relates the nodes of two such documents, apart from the texts
in *veiled* elements: those have no marker, and nothing else is said of them, unless the relation is
*strict* and there are as many in the one document as in the other.

The relation goes along with the ways to the fields (`Mirrors.alike`) and with the ways up to runs
(`Mirrors.enclosingRun?`).  Without veiled elements the two documents display the same trees
(`Mirrors.displays`).
-/

namespace WordFields

namespace Document

variable {d d' : Document}

/-- Whether a node is a text without a marker. -/
def Unmarked (d : Document) (x : NodeId) : Prop :=
  ∃ text, d.kind x = .text text ∧ Marker.occursIn text.toList = false

/-- Whether there are only texts without a marker in a node. -/
def HoldsUnmarked (d : Document) (x : NodeId) : Prop :=
  ∀ child ∈ d.children x, d.Unmarked child ∧ d.children child = []

/-- Whether a node is in no element but one that is veiled. -/
def Loose (d : Document) (veiled : NodeId → Prop) (x : NodeId) : Prop :=
  ∀ top, d.parent x = some top → veiled top

/-- A relation between the nodes of two documents that have the same elements at the same places and
differ in the texts of veiled elements only. -/
structure Mirrors (d d' : Document) (T : NodeId → NodeId → Prop) (veiled : NodeId → Prop)
    (strict : Prop) : Prop where
  wellFormed : d.WellFormed
  wellFormed' : d'.WellFormed
  biUnique : Relator.BiUnique T
  root : T root root
  isWord_veiled : ∀ {x}, veiled x → d.isWord x "t" = true
  not_in_instruction : ∀ {x instruction}, veiled x → d.isWord instruction "instrText" = true →
    ¬ d.Below instruction x
  parent : ∀ {x x'}, T x x' → Option.Rel T (d.parent x) (d'.parent x')
  children : ∀ {x x'}, T x x' → (veiled x → strict) →
    List.Forall₂ T (d.children x) (d'.children x')
  holdsUnmarked : ∀ {x x'}, T x x' → veiled x → d.HoldsUnmarked x ∧ d'.HoldsUnmarked x'
  kind : ∀ {x x'}, T x x' → d'.kind x' = d.kind x ∨
    d.Loose veiled x ∧ d.Unmarked x ∧ d'.Unmarked x'
  /-- Texts of veiled elements are related only if the relation is strict. -/
  strict_of_veiled : ∀ {x x' top}, T x x' → d.parent x = some top → veiled top → strict

namespace Mirrors

variable {T : NodeId → NodeId → Prop} {veiled : NodeId → Prop} {strict : Prop}
  {x x' top top' : NodeId}

/-! ## Single nodes -/

lemma element?_eq (h : Mirrors d d' T veiled strict) (hx : T x x') :
    d'.element? x' = d.element? x := by
  rcases h.kind hx with hkind | ⟨-, ⟨text, htext, -⟩, ⟨text', htext', -⟩⟩
  · rw [element?, element?, hkind]
  · rw [element?, element?, htext, htext']
    rfl

lemma isElement_eq (h : Mirrors d d' T veiled strict) (hx : T x x') :
    d'.isElement x' = d.isElement x :=
  congrArg Option.isSome (h.element?_eq hx)

lemma isWord_eq (h : Mirrors d d' T veiled strict) (hx : T x x') (localName : String) :
    d'.isWord x' localName = d.isWord x localName := by
  rw [isWord, isWord, isElementIn, isElementIn, h.element?_eq hx]

lemma fieldMark?_eq (h : Mirrors d d' T veiled strict) (hx : T x x') :
    d'.fieldMark? x' = d.fieldMark? x := by
  simp only [fieldMark?, wordAttribute?, attributeIn?, h.isWord_eq hx, h.element?_eq hx]

/-- The counterpart of a node is in the counterpart of its parent. -/
lemma exists_parent (h : Mirrors d d' T veiled strict) (hx : T x x')
    (htop : d.parent x = some top) : ∃ top', d'.parent x' = some top' ∧ T top top' := by
  rcases rel_iff.1 (h.parent hx) with ⟨hnone, -⟩ | ⟨y, top', hy, htop', hrel⟩
  · rw [hnone] at htop
    cases htop
  · obtain rfl : y = top := Option.some.inj (hy.symm.trans htop)
    exact ⟨top', htop', hrel⟩

lemma exists_parent' (h : Mirrors d d' T veiled strict) (hx : T x x')
    (htop' : d'.parent x' = some top') : ∃ top, d.parent x = some top ∧ T top top' := by
  rcases rel_iff.1 (h.parent hx) with ⟨-, hnone⟩ | ⟨top, y', htop, hy', hrel⟩
  · rw [hnone] at htop'
    cases htop'
  · obtain rfl : y' = top' := Option.some.inj (hy'.symm.trans htop')
    exact ⟨top, htop, hrel⟩

/-- A node that is not in a veiled element is what its counterpart is. -/
lemma kind_eq (h : Mirrors d d' T veiled strict) (hx : T x x') (htop : d.parent x = some top)
    (hplain : ¬ veiled top) : d'.kind x' = d.kind x :=
  (h.kind hx).resolve_right fun hloose => hplain (hloose.1 top htop)

/-- There is no element in a veiled element. -/
lemma not_veiled_of_element (h : Mirrors d d' T veiled strict) (hx : T x x') {child : NodeId}
    (hchild : d.parent child = some x) (helement : d.isElement child = true) : ¬ veiled x := by
  intro hveiled
  obtain ⟨⟨text, htext, -⟩, -⟩ :=
    (h.holdsUnmarked hx hveiled).1 child (h.wellFormed.mem_of_parent hchild)
  rw [isElement, htext] at helement
  cases helement

/-- What holds a node that holds another one is not veiled. -/
lemma not_veiled_of_child (h : Mirrors d d' T veiled strict) (htop : T top top')
    (hparent : d.parent x = some top) {child : NodeId} (hchild : d.parent child = some x) :
    ¬ veiled top := by
  intro hveiled
  obtain ⟨-, hnone⟩ := (h.holdsUnmarked htop hveiled).1 x (h.wellFormed.mem_of_parent hparent)
  have hmem := h.wellFormed.mem_of_parent hchild
  rw [hnone] at hmem
  cases hmem

/-! ## The way down -/

/-- The same elements are below related nodes. -/
lemma elements (h : Mirrors d d' T veiled strict) {x x' : NodeId} (hx : T x x') :
    List.Forall₂ T ((d.descendants x).filter d.isElement)
      ((d'.descendants x').filter d'.isElement) := by
  rw [h.wellFormed.descendants_eq_flatMap, h.wellFormed'.descendants_eq_flatMap,
    List.filter_flatMap, List.filter_flatMap]
  by_cases hplain : veiled x → strict
  · have hchildren : List.Forall₂ (fun child child' => child ∈ d.children x ∧ T child child')
        (d.children x) (d'.children x') :=
      (List.forall₂_and_left _ _).2 ⟨fun _ hmem => hmem, h.children hx hplain⟩
    refine List.rel_flatMap hchildren fun child child' ⟨hmem, hchild⟩ => ?_
    have hbelow := elements h hchild
    rw [List.filter_cons, List.filter_cons, h.isElement_eq hchild]
    split
    · exact .cons hchild hbelow
    · exact hbelow
  · obtain ⟨hveiled, -⟩ := Classical.not_imp.1 hplain
    have hnone : ∀ {d : Document}, d.WellFormed → ∀ x, d.HoldsUnmarked x →
        (d.children x).flatMap (fun child => (child :: d.descendants child).filter d.isElement) =
          [] := by
      intro d hd x hx
      refine List.flatMap_eq_nil_iff.2 fun child hchild => ?_
      obtain ⟨⟨text, htext, -⟩, hleaf⟩ := hx child hchild
      rw [hd.descendants_eq_flatMap, hleaf, List.flatMap_nil, List.filter_singleton, isElement,
        htext]
      rfl
    obtain ⟨hholds, hholds'⟩ := h.holdsUnmarked hx hveiled
    rw [hnone h.wellFormed x hholds, hnone h.wellFormed' x' hholds']
    exact .nil
termination_by d.size - d.level x
decreasing_by
  have hlt := h.wellFormed.level_lt_of_mem ‹_›
  have hle := d.level_le_size child
  omega

/-- Below a node with nothing veiled all nodes are related, and are what their counterparts are. -/
lemma descendants (h : Mirrors d d' T veiled strict) {x x' : NodeId} (hx : T x x')
    (hplain : ∀ y, y = x ∨ d.Below x y → ¬ veiled y) :
    List.Forall₂ (fun y y' => T y y' ∧ d'.kind y' = d.kind y) (d.descendants x)
      (d'.descendants x') := by
  have hself : ¬ veiled x := hplain x (.inl rfl)
  have hchildren : List.Forall₂ (fun child child' => child ∈ d.children x ∧ T child child')
      (d.children x) (d'.children x') :=
    (List.forall₂_and_left _ _).2
      ⟨fun _ hmem => hmem, h.children hx fun hveiled => absurd hveiled hself⟩
  rw [h.wellFormed.descendants_eq_flatMap, h.wellFormed'.descendants_eq_flatMap]
  refine List.rel_flatMap hchildren fun child child' ⟨hmem, hchild⟩ => ?_
  have hparent := h.wellFormed.parent_of_mem hmem
  have hbelow := below_of_parent hparent
  refine .cons ⟨hchild, h.kind_eq hchild hparent hself⟩ (descendants h hchild fun y hy => ?_)
  rcases hy with rfl | hy
  · exact hplain _ (.inr hbelow)
  · exact hplain y (.inr (hbelow.trans hy))
termination_by d.size - d.level x
decreasing_by
  have hlt := h.wellFormed.level_lt_of_mem ‹_›
  have hle := d.level_le_size child
  omega

/-- Related instructions have the same text. -/
lemma textContent_eq (h : Mirrors d d' T veiled strict) (hx : T x x')
    (hinstruction : d.isWord x "instrText" = true) : d'.textContent x' = d.textContent x := by
  have hplain : ∀ y, y = x ∨ d.Below x y → ¬ veiled y := by
    rintro y (rfl | hbelow) hveiled
    · exact absurd (name_eq_of_isWord hinstruction (h.isWord_veiled hveiled)) (by decide)
    · exact h.not_in_instruction hveiled hinstruction hbelow
  have hkind : d'.kind x' = d.kind x := by
    refine (h.kind hx).resolve_right fun ⟨_, ⟨text, htext, _⟩, _⟩ => ?_
    rw [isWord_of_kind_text htext] at hinstruction
    cases hinstruction
  rw [textContent, textContent, hkind]
  split
  · rfl
  · congr 1
    refine filterMap_eq_of_rel ((h.descendants hx hplain).imp fun y y' hy => ?_)
    rw [hy.2]

/-! ## The way sideways -/

/-- Two related lists of children split at a child as they split at its counterpart. -/
lemma split (h : Mirrors d d' T veiled strict) (hx : T x x')
    {ids ids' before after : List NodeId} (hids : List.Forall₂ T ids ids')
    (hsplit : ids = before ++ x :: after) :
    ∃ before' after', ids' = before' ++ x' :: after' ∧ List.Forall₂ T before before' ∧
      List.Forall₂ T after after' := by
  subst hsplit
  obtain ⟨before', y, after', rfl, hbefore, hy, hafter⟩ := rel_split hids
  obtain rfl := h.biUnique.2 hx hy
  exact ⟨before', after', rfl, hbefore, hafter⟩

/-- The same nodes are beside related nodes in an element that is not veiled. -/
lemma siblings (h : Mirrors d d' T veiled strict) (hx : T x x')
    (hplain : ∀ top, d.parent x = some top → ¬ veiled top) :
    List.Forall₂ T (d.followingSiblings x) (d'.followingSiblings x') ∧
      List.Forall₂ T (d.precedingSiblings x) (d'.precedingSiblings x') := by
  rcases rel_iff.1 (h.parent hx) with ⟨hnone, hnone'⟩ | ⟨top, top', htop, htop', hrel⟩
  · simp only [followingSiblings, precedingSiblings, siblingsOf, hnone, hnone']
    exact ⟨.nil, .nil⟩
  · have hchildren := h.children hrel fun hveiled => absurd hveiled (hplain top htop)
    obtain ⟨before, after, hsplit⟩ := List.append_of_mem (h.wellFormed.mem_of_parent htop)
    obtain ⟨before', after', hsplit', hbefore, hafter⟩ := h.split hx hchildren hsplit
    rw [followingSiblings_eq h.wellFormed hsplit, followingSiblings_eq h.wellFormed' hsplit',
      precedingSiblings_eq h.wellFormed hsplit, precedingSiblings_eq h.wellFormed' hsplit']
    exact ⟨hafter, List.forall₂_reverse_iff.2 hbefore⟩

/-- The two documents have the same fields. -/
theorem alike (h : Mirrors d d' T veiled strict) : Alike d d' T := by
  have hbesides : ∀ {x x' child : NodeId}, T x x' → d.parent child = some x →
      List.Forall₂ T (d.followingSiblings x) (d'.followingSiblings x') ∧
        List.Forall₂ T (d.precedingSiblings x) (d'.precedingSiblings x') := by
    intro x x' child hx hchild
    refine h.siblings hx fun top htop => ?_
    obtain ⟨top', -, hrel⟩ := h.exists_parent hx htop
    exact h.not_veiled_of_child hrel htop hchild
  constructor
  · exact h.biUnique
  · exact h.root
  · exact fun hx localName => h.isWord_eq hx localName
  · exact fun hx => h.fieldMark?_eq hx
  · exact fun hx hinstruction => h.textContent_eq hx hinstruction
  · exact fun hx => h.elements hx
  · exact fun hx _ => h.parent hx
  · exact fun hx _ hchild _ =>
      rel_filter_of_eq (hbesides hx hchild).1 fun _ _ hy => h.isElement_eq hy
  · exact fun hx _ hchild _ =>
      rel_filter_of_eq (hbesides hx hchild).2 fun _ _ hy => h.isElement_eq hy

lemma runs (h : Mirrors d d' T veiled strict) : List.Forall₂ T d.runs d'.runs :=
  h.alike.wordDescendants h.root "r"

/-! ## The way up -/

/-- Related nodes are in related runs. -/
lemma enclosingRun? (h : Mirrors d d' T veiled strict) {x x' : NodeId} (hx : T x x') :
    Option.Rel T (d.enclosingRun? x) (d'.enclosingRun? x') := by
  rw [Document.enclosingRun?, Document.enclosingRun?, h.wellFormed.nearest?_eq,
    h.wellFormed'.nearest?_eq, h.isWord_eq hx]
  split
  · exact .some hx
  · rcases rel_iff.1 (h.parent hx) with ⟨hnone, hnone'⟩ | ⟨top, top', htop, htop', hrel⟩
    · rw [hnone, hnone']
      exact .none
    · rw [htop, htop']
      exact enclosingRun? h hrel
termination_by d.level x
decreasing_by exact h.wellFormed.level_lt_of_parent htop

/-! ## Without veiled elements -/

/-- Documents without veiled elements show the same trees at related nodes. -/
lemma shows (h : Mirrors d d' T (fun _ => False) strict) {x x' : NodeId} (hx : T x x')
    (hkind : d'.kind x' = d.kind x) {tree : Tree} (hshows : d.Shows x tree) :
    d'.Shows x' tree := by
  induction tree using Tree.induct generalizing x x' with
  | node kind trees ih =>
    refine .intro (hkind.trans hshows.kind_eq) ?_
    have hchildren := h.children hx False.elim
    refine List.forall₂_iff_get.2
      ⟨hchildren.length_eq.symm.trans hshows.forest.length_eq, fun i hi' hi => ?_⟩
    have hlt : i < (d.children x).length := hshows.forest.length_eq ▸ hi
    have hchild := hchildren.get hlt hi'
    have hparent : d.parent ((d.children x).get ⟨i, hlt⟩) = some x :=
      h.wellFormed.parent_of_mem (List.get_mem _ _)
    exact ih _ (List.get_mem trees ⟨i, hi⟩) hchild (h.kind_eq hchild hparent not_false)
      (hshows.forest.get hlt hi)

/-- Documents without veiled elements display the same trees. -/
theorem displays (h : Mirrors d d' T (fun _ => False) strict) {trees : List Tree}
    (hdisplays : d.Displays trees) : d'.Displays trees := by
  refine ⟨h.wellFormed', h.shows h.root ?_ hdisplays.shows_root⟩
  refine (h.kind h.root).resolve_right fun ⟨_, ⟨text, htext, _⟩, _⟩ => ?_
  rw [hdisplays.shows_root.kind_eq] at htext
  cases htext

/-- Documents without veiled elements display the same trees, if the one displays any. -/
lemma exists_displays (h : Mirrors d d' T (fun _ => False) strict)
    (hroot : d.kind Document.root = .document) :
    ∃ trees, d.Displays trees ∧ d'.Displays trees := by
  obtain ⟨⟨kind, trees⟩, hshows⟩ := h.wellFormed.exists_shows Document.root
  obtain rfl : kind = .document := hshows.kind_eq.symm.trans hroot
  exact ⟨trees, ⟨h.wellFormed, hshows⟩, h.displays ⟨h.wellFormed, hshows⟩⟩

end Mirrors

/-- Documents that display the same trees mirror each other. -/
theorem Twins.mirrors {trees : List Tree} (hd : d.Displays trees) (hd' : d'.Displays trees)
    (hroot : d.parent Document.root = none) (hroot' : d'.parent Document.root = none) :
    Mirrors d d' (Twins d d') (fun _ => False) True where
  wellFormed := hd.wellFormed
  wellFormed' := hd'.wellFormed
  biUnique := biUnique hd.wellFormed hd'.wellFormed
  root := .root
  isWord_veiled := False.elim
  not_in_instruction := False.elim
  parent hx := by
    cases hx with
    | root =>
      rw [hroot, hroot']
      exact .none
    | child above place place' =>
      rw [hd.wellFormed.parent_of_mem (List.mem_of_getElem? place),
        hd'.wellFormed.parent_of_mem (List.mem_of_getElem? place')]
      exact .some above
  children hx _ := hx.children hd hd'
  holdsUnmarked _ := False.elim
  kind hx := .inl (hx.kind_eq hd hd')
  strict_of_veiled _ _ := False.elim

end Document

end WordFields
