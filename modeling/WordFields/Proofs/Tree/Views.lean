import WordFields.Proofs.Markup.Building
import WordFields.Proofs.Tree.Ascent

/-!
# Looking down and looking up

What is below a node is found on the way down, from child to child, whether a node is attached on
the way up, from parent to parent.  In a well-formed document both see the same tree
(`WellFormed.views_agree`).  The text of a node comes from a third view, the list of everything
below it.  If only elements and document nodes have children, it is put together from the texts of
the children (`WellFormed.textContent_eq_concat`).  A document node is one of the children that
count: nothing keeps it from being put into an element.
-/

namespace WordFields

/-- Whether a node is one of those that the text of an element consists of. -/
def NodeKind.bearsText (kind : NodeKind) : Bool :=
  kind.isElement || kind.textValue?.isSome

namespace Document

variable {d : Document}

/-! ## Chains of parents -/

/-- The chain of parents of a node passes through the node itself and all that it is below. -/
lemma exists_iterate_parent_iff {top id : NodeId} :
    (∃ steps, (fun above => above.bind d.parent)^[steps] (some id) = some top) ↔
      id = top ∨ d.Below top id := by
  constructor
  · rintro ⟨steps, hsteps⟩
    induction steps generalizing id with
    | zero => exact .inl (Option.some.inj hsteps)
    | succ steps ih =>
      rw [Function.iterate_succ_apply, Option.bind_some] at hsteps
      cases hparent : d.parent id with
      | none =>
        rw [hparent, Function.iterate_fixed rfl steps] at hsteps
        cases hsteps
      | some parent =>
        rw [hparent] at hsteps
        rcases ih hsteps with rfl | hbelow
        · exact .inr (below_of_parent hparent)
        · exact .inr (hbelow.trans (below_of_parent hparent))
  · rintro (rfl | hbelow)
    · exact ⟨0, rfl⟩
    · induction hbelow using Relation.TransGen.head_induction_on with
      | single hparent => exact ⟨1, hparent⟩
      | @head id parent hparent _ ih =>
        obtain ⟨steps, hsteps⟩ := ih
        refine ⟨steps + 1, ?_⟩
        rw [Function.iterate_succ_apply, Option.bind_some, hparent, hsteps]

lemma WellFormed.mem_descendants_iff_iterate (h : d.WellFormed) {top id : NodeId} :
    id ∈ d.descendants top ↔
      id ≠ top ∧ ∃ steps, (fun above => above.bind d.parent)^[steps] (some id) = some top := by
  rw [h.mem_descendants, exists_iterate_parent_iff]
  constructor
  · intro hbelow
    refine ⟨?_, .inr hbelow⟩
    rintro rfl
    exact h.acyclic _ hbelow
  · exact fun ⟨hne, hor⟩ => hor.resolve_left hne

/-! ## Texts -/

/-- The values of the text and CDATA nodes of a list. -/
def texts (d : Document) (ids : List NodeId) : List String :=
  ids.filterMap fun id => (d.kind id).textValue?

/-- The characters that a node adds to the text of those above it. -/
lemma WellFormed.flatMap_texts_eq (h : d.WellFormed)
    (htop : ∀ y, d.children y ≠ [] → d.kind y = .document ∨ d.isElement y = true) (id : NodeId) :
    (d.texts (id :: d.descendants id)).flatMap String.toList =
      if d.kind id = .document ∨ (d.kind id).bearsText = true then (d.textContent id).toList
      else [] := by
  have hleaf : d.kind id ≠ .document → d.isElement id = false → d.descendants id = [] := by
    intro hdocument helement
    rw [h.descendants_eq_flatMap]
    by_contra hsome
    rcases htop id (fun hnil => hsome (by rw [hnil, List.flatMap_nil])) with hkind | hkind
    · exact hdocument hkind
    · rw [helement] at hkind
      cases hkind
  unfold textContent texts
  cases hkind : d.kind id with
  | document => simp [hkind, NodeKind.textValue?, Text.toList_concat]
  | element e => simp [hkind, NodeKind.textValue?, NodeKind.bearsText, NodeKind.isElement,
      NodeKind.element?, Text.toList_concat]
  | _ =>
    rw [hleaf (by rw [hkind]; simp) (by rw [isElement, hkind]; rfl)]
    simp [hkind, NodeKind.textValue?, NodeKind.bearsText, NodeKind.isElement, NodeKind.element?]

/-- The text of a node is put together from the texts of its children. -/
theorem WellFormed.textContent_eq_concat (h : d.WellFormed)
    (htop : ∀ y, d.children y ≠ [] → d.kind y = .document ∨ d.isElement y = true) {id : NodeId}
    (hid : (d.kind id).textValue? = none) :
    d.textContent id = Text.concat (((d.children id).filter fun child =>
      d.kind child = .document ∨ (d.kind child).bearsText = true).map d.textContent) := by
  have hchars : ∀ ids : List NodeId,
      (d.texts (ids.flatMap fun child => child :: d.descendants child)).flatMap String.toList =
        ((ids.filter fun child => d.kind child = .document ∨
          (d.kind child).bearsText = true).map d.textContent).flatMap String.toList := by
    intro ids
    induction ids with
    | nil => rfl
    | cons child ids ih =>
      have hchild := h.flatMap_texts_eq htop child
      rw [texts] at hchild ih
      rw [List.flatMap_cons, texts, List.filterMap_append, List.flatMap_append, hchild, ih,
        List.filter_cons]
      split
      next hbears => simp [hbears]
      next hbears => simp [hbears]
  apply String.toList_inj.1
  rw [textContent, hid, Text.toList_concat, Text.toList_concat, h.descendants_eq_flatMap]
  exact hchars (d.children id)

/-! ## Both ways -/

/-- The list of what is below a node ends by itself, is a pre-order and has every node once whose
chain of parents passes through the node.  The attached nodes are those below the document node.
If only elements and document nodes have children, the text of an element is that of its element,
text, CDATA and document children. -/
theorem WellFormed.views_agree (h : d.WellFormed) (x : NodeId) :
    Listing d (d.children x) (d.descendants x) ∧
    d.descendants x = (d.children x).flatMap (fun child => child :: d.descendants child) ∧
    (d.descendants x).Nodup ∧
    (∀ y, y ∈ d.descendants x ↔
      y ≠ x ∧ ∃ steps, (fun above => above.bind d.parent)^[steps] (some y) = some x) ∧
    (d.isAttached x = true ↔ x = root ∨ x ∈ d.descendants root) ∧
    ((∀ y, d.children y ≠ [] → d.kind y = .document ∨ d.isElement y = true) →
      d.isElement x = true →
      d.textContent x = Text.concat (((d.children x).filter fun child =>
        d.kind child = .document ∨ (d.kind child).bearsText = true).map d.textContent)) := by
  refine ⟨h.listing_descendants x, h.descendants_eq_flatMap x, h.nodup_descendants x,
    fun y => h.mem_descendants_iff_iterate, h.isAttached_iff, fun htop helement => ?_⟩
  refine h.textContent_eq_concat htop ?_
  cases hkind : d.kind x with
  | element e => rfl
  | _ => rw [isElement, hkind] at helement; cases helement

def boldMarkup : String :=
  "<r>one<b>two<!--three--></b><![CDATA[four]]></r>"

theorem views_agree_bold : ∃ d, Markup.parse boldMarkup = .ok d ∧ d.WellFormed ∧
    d.descendants 1 = [2, 3, 4, 5, 6] ∧ d.isAttached 4 = true ∧
    (∀ y, d.children y ≠ [] → d.kind y = .document ∨ d.isElement y = true) ∧
    d.isElement 1 = true ∧ d.textContent 1 = Text.concat ([2, 3, 6].map d.textContent) := by
  obtain ⟨d, hparse, hlist, htop, hbelow, helement, hkept⟩ :
      ∃ d, Markup.parse boldMarkup = .ok d ∧ d.descendants 1 = [2, 3, 4, 5, 6] ∧
        (∀ y < d.size, d.children y ≠ [] → d.kind y = .document ∨ d.isElement y = true) ∧
        4 ∈ d.descendants root ∧ d.isElement 1 = true ∧
        ((d.children 1).filter fun child =>
          d.kind child = .document ∨ (d.kind child).bearsText = true) = [2, 3, 6] :=
    ⟨_, rfl, by decide +kernel⟩
  have hd := Markup.wellFormed_of_parse hparse
  obtain ⟨-, -, -, -, hattached, -⟩ := WellFormed.views_agree hd 4
  obtain ⟨-, -, -, -, -, htext⟩ := WellFormed.views_agree hd 1
  have hconcat := htext (forall_of_lt_size htop) helement
  rw [hkept] at hconcat
  exact ⟨d, hparse, hd, hlist, hattached.2 (.inr hbelow), forall_of_lt_size htop, helement,
    hconcat⟩

/-- A document after its document node has been put into a new element. -/
def turned (d : Document) : Document :=
  (d.create (.element ⟨⟨none, "e"⟩, none, []⟩)).2.appendChild d.size root

/-- The element has no element, text or CDATA node as a child, and yet all the text. -/
theorem not_textContent_eq_concat_bearsText : ∃ d, Markup.parse "<a>t<b/></a>" = .ok d ∧
    d.turned.WellFormed ∧
    (∀ y, d.turned.children y ≠ [] → y = root ∨ d.turned.isElement y = true) ∧
    d.turned.isElement 4 = true ∧ d.turned.textContent 4 ≠ Text.concat
      (((d.turned.children 4).filter fun child => (d.turned.kind child).bearsText).map
        d.turned.textContent) := by
  obtain ⟨d, hparse, hsize, hapart, htop, hrest⟩ :
      ∃ d, Markup.parse "<a>t<b/></a>" = .ok d ∧ d.size = 4 ∧
        d.size ∉ (d.create (.element ⟨⟨none, "e"⟩, none, []⟩)).2.descendants root ∧
        (∀ y < d.turned.size, d.turned.children y ≠ [] →
          y = root ∨ d.turned.isElement y = true) ∧
        d.turned.isElement 4 = true ∧ d.turned.textContent 4 ≠ Text.concat
          (((d.turned.children 4).filter fun child => (d.turned.kind child).bearsText).map
            d.turned.textContent) :=
    ⟨_, rfl, by decide +kernel⟩
  have hd := (Markup.wellFormed_of_parse hparse).create (.element ⟨⟨none, "e"⟩, none, []⟩)
  refine ⟨d, hparse, ?_, forall_of_lt_size htop, hrest⟩
  refine hd.appendChild ?_ ?_ ?_ (mt hd.mem_descendants.2 hapart)
  · rw [size_create]
    exact Nat.lt_succ_self _
  · rw [size_create]
    exact Nat.succ_pos _
  · rw [hsize]
    decide

end Document

end WordFields
