import WordFields.Proofs.Markup.Arrangement
import WordFields.Proofs.Tree.History
import WordFields.Proofs.Word.Simplification

/-!
# What simplification keeps

A pass takes elements out in groups, and each of them is one of presentation, or hollow in the
document as it is at that moment (`Strips`).  A hollow element has nothing significant below it but
runs and a break, so the way from a significant node up to the document node meets no element that
is taken out, unless it leads through an element of presentation or a break (`IsContent.apart`).
That way is the same after each group (`Stands.parent_of_strips`), and so after the whole pass
(`Stands.of_reflTransGen`, `simplify_keeps`).

A node that is neither an element nor the document node can be given children by an edit, but a pass
judges a run by what is below it without them: an element below a blank text goes with its run.  A
CDATA section does not count as significant either, and goes with a paragraph of a break
(`not_isAttached_simplify`).
-/

namespace WordFields.Document

variable {d d' : Document} {id : NodeId}

/-! ## Steps -/

/-- Whether an element only concerns the look of a document. -/
def IsPresentation (d : Document) (id : NodeId) : Prop :=
  ∃ name ∈ presentationNames, d.isWord id name = true

instance (d : Document) : DecidablePred d.IsPresentation := fun id =>
  inferInstanceAs (Decidable (∃ name ∈ presentationNames, d.isWord id name = true))

/-- One step of a pass: elements of presentation, or hollow ones, are taken out together. -/
def Strips (d d' : Document) : Prop :=
  ∃ ids, (∀ id ∈ ids, id ∈ d.descendants root ∧ (d.IsPresentation id ∨ d.IsHollow id)) ∧
    d' = d.removeAll ids

lemma strips_removeNamed {names : List String} (hnames : names ⊆ presentationNames)
    (d : Document) : Relation.ReflTransGen Strips d
      (names.foldl (fun d name => (d.wordElements name).foldl remove d) d) := by
  induction names generalizing d with
  | nil => exact .refl
  | cons name names ih =>
    obtain ⟨hname, hnames⟩ := List.cons_subset.1 hnames
    refine .head ⟨d.wordElements name, fun id hid => ?_, rfl⟩ (ih hnames _)
    obtain ⟨hmem, hword⟩ := mem_wordElements.1 hid
    exact ⟨hmem, .inl ⟨name, hname, hword⟩⟩

lemma strips_removeEmptyWithin {localName : String} (hname : localName = "r" ∨ localName = "p")
    (rounds : Nat) (d : Document) :
    Relation.ReflTransGen Strips d (removeEmptyWithin localName rounds d) := by
  induction rounds generalizing d with
  | zero => exact .refl
  | succ rounds ih =>
    rw [removeEmptyWithin]
    split
    next => exact .refl
    next =>
      refine .head ⟨(d.wordElements localName).filter d.isEmptyElement, fun id hid => ?_, rfl⟩
        (ih _)
      obtain ⟨hword, hempty⟩ := List.mem_filter.1 hid
      obtain ⟨hmem, hword⟩ := mem_wordElements.1 hword
      rcases hname with rfl | rfl
      · exact ⟨hmem, .inr (.inl ⟨.inl hword, hempty⟩)⟩
      · exact ⟨hmem, .inr (.inl ⟨.inr hword, hempty⟩)⟩

lemma strips_removeBreakParagraphs (d : Document) : Strips d d.removeBreakParagraphs := by
  refine ⟨d.paragraphs.filter d.isBreakParagraph, fun id hid => ?_, rfl⟩
  obtain ⟨hword, hbreak⟩ := List.mem_filter.1 hid
  obtain ⟨hmem, hword⟩ := mem_wordElements.1 hword
  exact ⟨hmem, .inr (.inr ⟨hword, hbreak⟩)⟩

theorem strips_simplify (d : Document) : Relation.ReflTransGen Strips d d.simplify :=
  ((strips_removeNamed (List.Subset.refl _) d).trans
    ((strips_removeEmptyWithin (.inl rfl) _ _).trans
      (strips_removeEmptyWithin (.inr rfl) _ _))).tail (strips_removeBreakParagraphs _)

lemma Strips.exists_sheds (hd : d.WellFormed) (h : Strips d d') :
    ∃ shed, d.Sheds d' shed ∧ ∀ id ∈ shed, d.IsPresentation id ∨ d.IsHollow id := by
  obtain ⟨ids, hids, rfl⟩ := h
  exact ⟨ids, .of_removeAll hd fun id hid => (hids id hid).1, fun id hid => (hids id hid).2⟩

/-! ## Content -/

/-- Whether a node is content outside markup of presentation: an element that is no run, paragraph
or break, or a text that is not blank, neither inside an element of presentation nor inside a
break. -/
structure IsContent (d : Document) (id : NodeId) : Prop where
  significant : (d.isElement id = true ∧ ∀ name ∈ ["r", "p", "br"], d.isWord id name = false) ∨
    ∃ value, d.kind id = .text value ∧ Text.allBlank value.toList = false
  unpresented : ∀ above, above = id ∨ d.Below above id → ¬ d.IsPresentation above
  unbroken : ∀ above, d.Below above id → d.isWord above "br" = false

/-- Whether all nodes above a node are elements, but for the document node. -/
def InElements (d : Document) (id : NodeId) : Prop :=
  ∀ above, d.Below above id → above = root ∨ d.isElement above = true

/-- Where only elements and the document node have children, nothing else is above a node. -/
lemma WellFormed.inElements (hd : d.WellFormed)
    (h : ∀ top ∈ List.range d.size, d.children top ≠ [] → top = root ∨ d.isElement top = true)
    (id : NodeId) : d.InElements id := fun above hbelow => by
  obtain ⟨child, hchild, -⟩ := hd.exists_child_of_below hbelow
  exact h above (List.mem_range.2 (lt_size_of_mem_children hchild)) (List.ne_nil_of_mem hchild)

/-- So they are in a document that has been read. -/
lemma inElements_of_parse {text : String} (h : Markup.parse text = .ok d) (id : NodeId) :
    d.InElements id := by
  refine (Markup.wellFormed_of_parse h).inElements (fun top _ hchildren => ?_) id
  obtain ⟨child, hchild⟩ := List.exists_mem_of_ne_nil _ hchildren
  exact isElement_of_parse h hchild

lemma isSignificant_of_isElement (h : d.isElement id = true) {top : NodeId}
    (hchild : id ∈ d.children top) : id ∈ d.significantChildren top := by
  refine List.mem_filter.2 ⟨hchild, ?_⟩
  unfold isElement NodeKind.isElement NodeKind.element? at h
  cases hkind : d.kind id <;> simp_all

lemma significantChildren_of_isEmptyElement {top : NodeId} (h : d.isEmptyElement top = true) :
    d.significantChildren top = [] := by
  refine List.filter_eq_nil_iff.2 fun child hchild => ?_
  have hblank := List.all_eq_true.1 (Bool.and_eq_true_iff.1 h).2 child hchild
  unfold isBlankText at hblank
  cases hkind : d.kind child <;> simp_all

namespace IsContent

lemma isWord_eq_false (h : d.IsContent id) {name : String} (hname : name ∈ ["r", "p", "br"]) :
    d.isWord id name = false := by
  rcases h.significant with ⟨-, hwords⟩ | ⟨value, hkind, -⟩
  · exact hwords name hname
  · exact isWord_of_kind_text hkind name

/-- The way down to content from an attached node leads through a significant child. -/
lemma exists_significantChild (h : d.IsContent id) (hd : d.WellFormed) (hin : d.InElements id)
    {top : NodeId} (htop : d.Below root top) (hbelow : d.Below top id) :
    ∃ child ∈ d.significantChildren top, child = id ∨ d.Below child id := by
  obtain ⟨child, hchild, hplace⟩ := hd.exists_child_of_below hbelow
  refine ⟨child, ?_, hplace⟩
  rcases hplace with rfl | habove
  · rcases h.significant with ⟨helement, -⟩ | ⟨value, hkind, hblank⟩
    · exact isSignificant_of_isElement helement hchild
    · exact List.mem_filter.2 ⟨hchild, by simp [hkind, hblank]⟩
  · rcases hin child habove with rfl | helement
    · exact absurd (htop.trans (below_of_parent (hd.parent_of_mem hchild))) (hd.acyclic root)
    · exact isSignificant_of_isElement helement hchild

/-- What a pass may take out is neither content nor above content. -/
lemma apart (h : d.IsContent id) (hd : d.WellFormed) (hin : d.InElements id) {x : NodeId}
    (hx : x ∈ d.descendants root) (hout : d.IsPresentation x ∨ d.IsHollow x) :
    x ≠ id ∧ ¬ d.Below x id := by
  have hroot := hd.mem_descendants.1 hx
  rcases hout with hlook | ⟨hword, hempty⟩ | ⟨hparagraph, hbreak⟩
  · exact ⟨fun heq => h.unpresented x (.inl heq) hlook,
      fun hbelow => h.unpresented x (.inr hbelow) hlook⟩
  · refine ⟨?_, fun hbelow => ?_⟩
    · rintro rfl
      rw [h.isWord_eq_false (by decide), h.isWord_eq_false (by decide)] at hword
      exact hword.elim Bool.false_ne_true Bool.false_ne_true
    · obtain ⟨child, hchild, -⟩ := h.exists_significantChild hd hin hroot hbelow
      rw [significantChildren_of_isEmptyElement hempty] at hchild
      cases hchild
  · refine ⟨?_, fun hbelow => ?_⟩
    · rintro rfl
      rw [h.isWord_eq_false (by decide)] at hparagraph
      cases hparagraph
    -- the way down goes through the run and then through the break
    obtain ⟨run, hrun, hplace⟩ := h.exists_significantChild hd hin hroot hbelow
    unfold isBreakParagraph at hbreak
    split at hbreak
    next only honly =>
      obtain rfl : run = only := List.mem_singleton.1 (honly ▸ hrun)
      obtain ⟨hword, hbreak⟩ := Bool.and_eq_true_iff.1 hbreak
      rcases hplace with rfl | hplace
      · rw [h.isWord_eq_false (by decide)] at hword
        cases hword
      have hchild := hd.parent_of_mem (List.mem_of_mem_filter hrun)
      obtain ⟨child, hchild, hplace⟩ :=
        h.exists_significantChild hd hin (hroot.trans (below_of_parent hchild)) hplace
      split at hbreak
      next only' honly' =>
        obtain rfl : child = only' := List.mem_singleton.1 (honly' ▸ hchild)
        have hword := (Bool.and_eq_true_iff.1 hbreak).1
        rcases hplace with rfl | hplace
        · rw [h.isWord_eq_false (by decide)] at hword
          cases hword
        · rw [h.unbroken child hplace] at hword
          cases hword
      next => cases hbreak
    next => cases hbreak

end IsContent

/-! ## What a pass keeps -/

lemma Below.transfer {top : NodeId} (h : d.Below top id)
    (hparent : ∀ y, y = id ∨ d.Below y id → d'.parent y = d.parent y) : d'.Below top id := by
  induction h using Relation.TransGen.head_induction_on with
  | single hstep => exact .single ((hparent _ (.inl rfl)).trans hstep)
  | head hstep _ ih =>
    refine .head ((hparent _ (.inl rfl)).trans hstep) (ih fun y hy => hparent y (.inr ?_))
    exact (below_iff_of_parent hstep).2 hy

/-- A node of content in the document. -/
structure Stands (d : Document) (id : NodeId) : Prop where
  isAttached : d.isAttached id = true
  isContent : d.IsContent id
  inElements : d.InElements id

namespace Stands

/-- A group takes out nothing on the way up from content. -/
lemma parent_of_strips (h : d.Stands id) (hd : d.WellFormed) (hstep : d.Strips d')
    {y : NodeId} (hy : y = id ∨ d.Below y id) : d'.parent y = d.parent y := by
  obtain ⟨shed, hsheds, hout⟩ := hstep.exists_sheds hd
  rw [hsheds.pruned.parent_eq, if_neg]
  intro hshed
  obtain ⟨hne, hnot⟩ := h.isContent.apart hd h.inElements (hsheds.attached hshed) (hout y hshed)
  exact hy.elim hne hnot

lemma of_strips (h : d.Stands id) (hd : d.WellFormed) (hstep : d.Strips d') :
    d'.Stands id := by
  obtain ⟨shed, hsheds, -⟩ := hstep.exists_sheds hd
  have hparent : ∀ y, y = id ∨ d.Below y id → d'.parent y = d.parent y := fun _ =>
    h.parent_of_strips hd hstep
  have hbelow : ∀ {y}, d'.Below y id → d.Below y id := fun hy =>
    hy.mono fun _ _ => hsheds.pruned.parent_of_parent
  have hword := hsheds.isWord_eq
  refine ⟨?_, ⟨?_, fun above habove => ?_, fun above habove => ?_⟩, fun above habove => ?_⟩
  · rw [(hsheds.wellFormed hd).isAttached_iff, (hsheds.wellFormed hd).mem_descendants]
    refine (hd.isAttached_iff.1 h.isAttached).imp_right fun hmem => ?_
    exact (hd.mem_descendants.1 hmem).transfer hparent
  · simpa only [isElement, hsheds.kind_eq, hword] using h.isContent.significant
  · have hnot := h.isContent.unpresented above (habove.imp_right hbelow)
    simpa only [IsPresentation, hword] using hnot
  · rw [hword]
    exact h.isContent.unbroken above (hbelow habove)
  · rw [isElement, hsheds.kind_eq]
    exact h.inElements above (hbelow habove)

/-- The way up from content stays what it is, and content stays content. -/
lemma of_reflTransGen (h : d.Stands id) (hd : d.WellFormed)
    (hsteps : Relation.ReflTransGen Strips d d') :
    d'.Stands id ∧ ∀ y, y = id ∨ d.Below y id → d'.parent y = d.parent y := by
  induction hsteps using Relation.ReflTransGen.head_induction_on with
  | refl => exact ⟨h, fun _ _ => rfl⟩
  | head hstep _ ih =>
    obtain ⟨shed, hsheds, -⟩ := hstep.exists_sheds hd
    have hparent := fun y => h.parent_of_strips hd hstep (y := y)
    obtain ⟨hstands, hrest⟩ := ih (h.of_strips hd hstep) (hsheds.wellFormed hd)
    exact ⟨hstands, fun y hy =>
      (hrest y (hy.imp_right fun hbelow => hbelow.transfer hparent)).trans (hparent y hy)⟩

end Stands

/-- A pass keeps content outside markup of presentation where it is, if only elements are above it,
as in every document that has been read; it leaves the children of a node in their order, and
neither makes nor changes a node. -/
theorem simplify_keeps (hd : d.WellFormed) :
    (∀ id, d.isAttached id = true → d.IsContent id → d.InElements id →
      d.simplify.isAttached id = true ∧ d.simplify.parent id = d.parent id) ∧
    (∀ id, (d.simplify.children id).Sublist (d.children id)) ∧
    d.simplify.size = d.size ∧ (∀ id, d.simplify.kind id = d.kind id) ∧
    ∀ text, Markup.parse text = .ok d → ∀ id, d.InElements id := by
  obtain ⟨shed, hsheds⟩ := exists_sheds_simplify hd
  refine ⟨fun id hattached hcontent hin => ?_, fun id => ?_, hsheds.pruned.size_eq, hsheds.kind_eq,
    fun _ => inElements_of_parse⟩
  · have hstands : d.Stands id := ⟨hattached, hcontent, hin⟩
    obtain ⟨hstays, hparent⟩ := hstands.of_reflTransGen hd d.strips_simplify
    exact ⟨hstays.isAttached, hparent id (.inl rfl)⟩
  · rw [hsheds.pruned.children_eq]
    exact List.filter_sublist

def styledMarkup : String := Text.concat
  ["<w:p xmlns:w=\"http://schemas.openxmlformats.org/wordprocessingml/2006/main\">",
    "<w:r><w:rPr/><w:t/></w:r><w:r><w:rPr/> </w:r><w:p><w:r><w:br/><!--x--></w:r></w:p>y</w:p>"]

/-- A page with a run that only holds presentation and blank text, and a paragraph of a break. -/
def styledPage : Document :=
  ofForest [.word "p" [wordDeclaration]
    [.word "r" [] [.word "rPr" [] [], .word "t" [] []],
      .word "r" [] [.word "rPr" [] [], .node (.text " ") []],
      .word "p" [] [.word "r" [] [.word "br" [] [], .node (.comment "x") []]],
      .node (.text "y") []]]

lemma parse_styledMarkup : Markup.parse styledMarkup = .ok styledPage :=
  Markup.parse_concat [_, _] (by decide +kernel)

lemma WellFormed.forall_above (hd : d.WellFormed) {P : NodeId → Prop}
    (h : ∀ above ∈ List.range d.size, id ∈ d.descendants above → P above) (above : NodeId)
    (hbelow : d.Below above id) : P above := by
  obtain ⟨child, hchild, -⟩ := hd.exists_child_of_below hbelow
  exact h above (List.mem_range.2 (lt_size_of_mem_children hchild)) (hd.mem_descendants.2 hbelow)

/-- The empty text element of the first run stays in it. -/
theorem simplify_keeps_styled :
    Markup.parse styledMarkup = .ok styledPage ∧ styledPage.WellFormed ∧
      styledPage.isAttached 4 = true ∧ styledPage.IsContent 4 ∧ styledPage.InElements 4 ∧
      styledPage.simplify.descendants root = [1, 2, 4, 12] ∧
      styledPage.simplify.isAttached 4 = true ∧
      styledPage.simplify.parent 4 = styledPage.parent 4 := by
  have hd : styledPage.WellFormed := (displays_ofForest _).wellFormed
  have hattached : styledPage.isAttached 4 = true := by decide +kernel
  have hin : styledPage.InElements 4 := inElements_of_parse parse_styledMarkup 4
  have hcontent : styledPage.IsContent 4 := {
    significant := .inl (by decide +kernel)
    unpresented := by
      rintro above (rfl | habove)
      · decide +kernel
      · exact hd.forall_above (P := fun above => ¬ styledPage.IsPresentation above)
          (by decide +kernel) above habove
    unbroken := hd.forall_above (by decide +kernel) }
  exact ⟨parse_styledMarkup, hd, hattached, hcontent, hin, by decide +kernel,
    (simplify_keeps hd).1 4 hattached hcontent hin⟩

/-! ## What a pass loses -/

def crampedMarkup : String := Text.concat
  ["<w:p xmlns:w=\"http://schemas.openxmlformats.org/wordprocessingml/2006/main\">",
    "<w:r> </w:r>x</w:p>"]

/-- A page with a run that only holds blank text. -/
def crampedPage : Document :=
  ofForest [.word "p" [wordDeclaration]
    [.word "r" [] [.node (.text " ") []], .node (.text "x") []]]

/-- A text element is made and put below the blank text. -/
def crampedEdits : List Edit :=
  [.create (.element (.word "t" [])), .appendChild 3 5]

def verbatimMarkup : String := Text.concat
  ["<w:body xmlns:w=\"http://schemas.openxmlformats.org/wordprocessingml/2006/main\">",
    "<w:p><w:r><w:br/><![CDATA[hello]]></w:r></w:p><w:t>x</w:t></w:body>"]

/-- A page with a break paragraph that has a CDATA section as well. -/
def verbatimPage : Document :=
  ofForest [.word "body" [wordDeclaration]
    [.word "p" [] [.word "r" [] [.word "br" [] [], .node (.cdata "hello") []]],
      .word "t" [] [.node (.text "x") []]]]

/-- An element below a blank text goes with the run, and a CDATA section with the paragraph of a
break. -/
theorem not_isAttached_simplify :
    let page := crampedPage.editAll crampedEdits
    (Markup.parse crampedMarkup = .ok crampedPage ∧ crampedPage.Allows crampedEdits ∧
      page.isAttached 5 = true ∧ page.IsContent 5 ∧ page.simplify.isAttached 5 = false) ∧
    Markup.parse verbatimMarkup = .ok verbatimPage ∧ verbatimPage.kind 5 = .cdata "hello" ∧
      verbatimPage.isAttached 5 = true ∧
      (∀ above, verbatimPage.Below above 5 → ¬ verbatimPage.IsPresentation above ∧
        verbatimPage.isWord above "br" = false) ∧
      verbatimPage.simplify.isAttached 5 = false := by
  intro page
  have hallowed : crampedPage.Allows crampedEdits := by decide +kernel
  have hd : page.WellFormed := (displays_ofForest _).wellFormed.editAll hallowed
  have hcontent : page.IsContent 5 := {
    significant := .inl (by decide +kernel)
    unpresented := by
      rintro above (rfl | habove)
      · decide +kernel
      · exact hd.forall_above (P := fun above => ¬ page.IsPresentation above)
          (by decide +kernel) above habove
    unbroken := hd.forall_above (by decide +kernel) }
  have hverbatim : verbatimPage.WellFormed := (displays_ofForest _).wellFormed
  refine ⟨⟨Markup.parse_concat [_, _] (by decide +kernel), hallowed, by decide +kernel, hcontent,
    by decide +kernel⟩, Markup.parse_concat [_, _] (by decide +kernel), rfl, by decide +kernel, ?_,
    by decide +kernel⟩
  exact hverbatim.forall_above (P := fun above => ¬ verbatimPage.IsPresentation above ∧
    verbatimPage.isWord above "br" = false) (by decide +kernel)

end WordFields.Document
