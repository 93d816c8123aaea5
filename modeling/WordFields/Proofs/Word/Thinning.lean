import WordFields.Proofs.Word.Likeness
import WordFields.Proofs.Word.Passage
import WordFields.Proofs.Word.Stripping

/-!
# Documents that get thinner around their fields

A change that takes nodes out may leave the parts of fields alone: the field characters, the
instructions and the text elements.  `Document.Thins` says so of the ways up from these parts, and
of what is inside texts and instructions.  Then the parts below a node are the same
(`Thins.wordDescendants_eq`), and so are the marks that are found from an instruction
(`Thins.locateTriad_eq`): what is gone among the siblings had no mark in it.

Simplification is such a change where markup of presentation, breaks, runs and paragraphs are not
mixed with the parts of fields in an unusual way (`exists_thins_simplify`).
-/

namespace WordFields

/-! ## Lists with some items left out -/

section

variable {α β : Type} {items kept : List α}

lemma filter_eq_of_sublist [DecidableEq α] (h : kept.Sublist items) (hnodup : items.Nodup)
    {test : α → Bool} (hkept : ∀ item ∈ items, test item = true → item ∈ kept) :
    kept.filter test = items.filter test := by
  refine (h.filter test).eq_of_length_le ?_
  have hsubset : items.filter test ⊆ kept.filter test := fun item hitem => by
    obtain ⟨hmem, htest⟩ := List.mem_filter.1 hitem
    exact List.mem_filter.2 ⟨hkept item hmem htest, htest⟩
  exact (List.subperm_of_subset (hnodup.filter test) hsubset).length_le

lemma sublist_flatMap_filter {below below' : α → List β} {stay : α → Bool}
    (hbelow : ∀ item ∈ items, (below' item).Sublist (below item)) :
    ((items.filter stay).flatMap below').Sublist (items.flatMap below) := by
  induction items with
  | nil => exact .slnil
  | cons item items ih =>
    have hrest := ih fun other hother => hbelow other (List.mem_cons_of_mem _ hother)
    rw [List.filter_cons, List.flatMap_cons]
    split
    · rw [List.flatMap_cons]
      exact (hbelow item List.mem_cons_self).append hrest
    · exact hrest.trans (List.sublist_append_right _ _)

/-- A search does not miss items in which it finds nothing. -/
lemma findSome?_filter {f f' : α → Option β} {stay : α → Bool}
    (hsame : ∀ item ∈ items, f' item = f item)
    (hout : ∀ item ∈ items, stay item = false → f item = none) :
    (items.filter stay).findSome? f' = items.findSome? f := by
  induction items with
  | nil => rfl
  | cons item items ih =>
    have hrest := ih (fun other hother => hsame other (List.mem_cons_of_mem _ hother))
      fun other hother => hout other (List.mem_cons_of_mem _ hother)
    cases hstay : stay item with
    | true =>
      rw [List.filter_cons_of_pos hstay, List.findSome?_cons, List.findSome?_cons,
        hsame item List.mem_cons_self, hrest]
    | false =>
      rw [List.filter_cons_of_neg (by simp [hstay]), List.findSome?_cons,
        hout item List.mem_cons_self hstay, hrest]

end

namespace Document

variable {d d' : Document} {shed : List NodeId}

/-! ## Shedding -/

namespace Sheds

/-- What is below a node keeps its order. -/
lemma descendants_sublist (h : d.Sheds d' shed) (hd : d.WellFormed) (top : NodeId) :
    (d'.descendants top).Sublist (d.descendants top) := by
  have hchildren : ∀ child ∈ d.children top,
      (d'.descendants child).Sublist (d.descendants child) :=
    fun child _ => descendants_sublist h hd child
  rw [(h.wellFormed hd).descendants_eq_flatMap, hd.descendants_eq_flatMap, h.pruned.children_eq]
  exact sublist_flatMap_filter fun child hchild => (hchildren child hchild).cons_cons child
termination_by d.size - d.level top
decreasing_by
  have hlt := hd.level_lt_of_mem ‹_›
  have hle := d.level_le_size child
  omega

lemma isElement_eq (h : d.Sheds d' shed) : d'.isElement = d.isElement := by
  funext x
  rw [isElement, isElement, h.kind_eq]

lemma fieldMark?_eq (h : d.Sheds d' shed) : d'.fieldMark? = d.fieldMark? := by
  funext x
  simp only [fieldMark?, wordAttribute?, attributeIn?, element?, h.isWord_eq, h.kind_eq]

lemma not_mem_of_parent_eq (h : d.Sheds d' shed) (hd : d.WellFormed) {x : NodeId}
    (hparent : d'.parent x = d.parent x) : x ∉ shed := by
  intro hshed
  rw [h.pruned.parent_eq, if_pos hshed] at hparent
  exact not_below_of_parent_none hparent.symm (hd.mem_descendants.1 (h.attached hshed))

/-- Beside a node that stays there are the same elements but those that are shed. -/
lemma besides_eq (h : d.Sheds d' shed) (hd : d.WellFormed) {x : NodeId} (hx : x ∉ shed) :
    d'.followingElements x = (d.followingElements x).filter (· ∉ shed) ∧
      d'.precedingElements x = (d.precedingElements x).filter (· ∉ shed) := by
  have hparent : d'.parent x = d.parent x := by rw [h.pruned.parent_eq, if_neg hx]
  obtain ⟨hfollowing, hpreceding⟩ := siblings_eq_filter hd (h.wellFormed hd)
    (decide_eq_true hx) hparent fun top _ => h.pruned.children_eq top
  rw [followingElements, followingElements, precedingElements, precedingElements, hfollowing,
    hpreceding, h.isElement_eq]
  exact ⟨List.filter_comm _ _ _, List.filter_comm _ _ _⟩

end Sheds

/-! ## Parts of fields -/

lemma mem_wordDescendants {top x : NodeId} {name : String} :
    x ∈ d.wordDescendants top name ↔ x ∈ d.descendants top ∧ d.isWord x name = true :=
  List.mem_filter

/-- The document node and all nodes below it. -/
abbrev attachedNodes (d : Document) : List NodeId :=
  root :: d.descendants root

lemma mem_attachedNodes (hd : d.WellFormed) {x : NodeId} :
    x ∈ d.attachedNodes ↔ x = root ∨ d.Below root x := by
  rw [List.mem_cons, hd.mem_descendants]

lemma mem_descendants_root_of_below (hd : d.WellFormed) {top x : NodeId}
    (htop : top ∈ d.attachedNodes) (hbelow : d.Below top x) : x ∈ d.descendants root := by
  rw [hd.mem_descendants]
  rcases (mem_attachedNodes hd).1 htop with rfl | habove
  · exact hbelow
  · exact habove.trans hbelow

/-- Where nothing is above the document node, what is above an attached node is attached. -/
lemma mem_attachedNodes_of_below (hd : d.WellFormed) (hroot : d.parent root = none) {top x : NodeId}
    (hx : x ∈ d.attachedNodes) (hbelow : d.Below top x) : top ∈ d.attachedNodes := by
  rw [mem_attachedNodes hd] at hx ⊢
  rcases hx with rfl | hx
  · exact absurd hbelow (not_below_of_parent_none hroot)
  · rcases hbelow.comparable hx with rfl | habove | hunder
    · exact .inl rfl
    · exact absurd habove (not_below_of_parent_none hroot)
    · exact .inr hunder

lemma besides_subset (hd : d.WellFormed) (hroot : d.parent root = none) {x : NodeId}
    (hx : x ∈ d.attachedNodes) :
    d.followingElements x ⊆ d.descendants root ∧ d.precedingElements x ⊆ d.descendants root := by
  have hsiblings : d.siblingsOf x ⊆ d.descendants root := by
    intro sibling hsibling
    unfold siblingsOf at hsibling
    split at hsibling
    next top htop =>
      split at hsibling
      · have habove := mem_attachedNodes_of_below hd hroot hx (below_of_parent htop)
        exact mem_descendants_root_of_below hd habove
          (below_of_parent (hd.parent_of_mem hsibling))
      · cases hsibling
    next => cases hsibling
  constructor
  · exact fun y hy => hsiblings
      ((List.dropWhile_sublist _).subset (List.mem_of_mem_drop (List.mem_of_mem_filter hy)))
  · exact fun y hy => hsiblings
      ((List.takeWhile_sublist _).subset (List.mem_reverse.1 (List.mem_of_mem_filter hy)))

lemma mem_descendants_of_locateNext? (hd : d.WellFormed) (hroot : d.parent root = none)
    {x found : NodeId} {mark : FieldMark} (hx : x ∈ d.descendants root)
    (h : d.locateNext? x mark = some found) : found ∈ d.descendants root := by
  unfold locateNext? at h
  split at h
  next top htop =>
    obtain ⟨container, hcontainer, hfound⟩ := List.exists_of_findSome?_eq_some h
    have habove := mem_attachedNodes_of_below hd hroot (List.mem_cons_of_mem _ hx)
      (below_of_parent htop)
    have hattached := (besides_subset hd hroot habove).1 hcontainer
    obtain ⟨hbelow, -⟩ := mem_wordDescendants.1 (List.mem_of_find?_eq_some hfound)
    exact mem_descendants_root_of_below hd (List.mem_cons_of_mem _ hattached)
      (hd.mem_descendants.1 hbelow)
  next => cases h

/-- A change that sheds nodes, but neither on the way up from a part of a field nor inside a text
element or an instruction. -/
structure Thins (d d' : Document) (shed : List NodeId) : Prop where
  sheds : d.Sheds d' shed
  parent_eq : ∀ x ∈ d.descendants root, d.isFieldPart x = true →
    ∀ y, y = x ∨ d.Below y x → d'.parent y = d.parent y
  children_eq : ∀ x ∈ d.descendants root,
    d.isWord x "t" = true ∨ d.isWord x "instrText" = true →
      ∀ y, y = x ∨ d.Below x y → d'.children y = d.children y

namespace Thins

variable {x top : NodeId} {name : String}

lemma wordDescendants_eq (h : d.Thins d' shed) (hd : d.WellFormed) (htop : top ∈ d.attachedNodes)
    (hname : name ∈ ["fldChar", "instrText", "t"]) :
    d'.wordDescendants top name = d.wordDescendants top name := by
  have hword : ∀ y, d'.isElementIn y wordNamespace name = d.isElementIn y wordNamespace name :=
    fun y => h.sheds.isWord_eq y name
  rw [wordDescendants, descendantsIn, wordDescendants, descendantsIn, funext hword]
  refine filter_eq_of_sublist (h.sheds.descendants_sublist hd top) (hd.nodup_descendants top)
    fun y hy hyword => ?_
  have hbelow := hd.mem_descendants.1 hy
  have hattached := mem_descendants_root_of_below hd htop hbelow
  have hparent := h.parent_eq y hattached (isFieldPart_iff.2 ⟨name, hname, hyword⟩)
  exact (h.sheds.wellFormed hd).mem_descendants.2 (hbelow.transfer hparent)

lemma firstWordDescendant?_eq (h : d.Thins d' shed) (hd : d.WellFormed)
    (htop : top ∈ d.attachedNodes) (hname : name ∈ ["fldChar", "instrText", "t"]) :
    d'.firstWordDescendant? top name = d.firstWordDescendant? top name := by
  rw [firstWordDescendant?_eq_head?, firstWordDescendant?_eq_head?,
    h.wordDescendants_eq hd htop hname]

lemma runMark?_eq (h : d.Thins d' shed) (hd : d.WellFormed) (htop : top ∈ d.attachedNodes) :
    d'.runMark? top = d.runMark? top := by
  rw [runMark?, runMark?, h.firstWordDescendant?_eq hd htop (by decide), h.sheds.fieldMark?_eq]

lemma runInstruction?_eq (h : d.Thins d' shed) (hd : d.WellFormed) (htop : top ∈ d.attachedNodes) :
    d'.runInstruction? top = d.runInstruction? top :=
  h.firstWordDescendant?_eq hd htop (by decide)

lemma textContent_eq (h : d.Thins d' shed) (hd : d.WellFormed) (hx : x ∈ d.descendants root)
    (hword : d.isWord x "t" = true ∨ d.isWord x "instrText" = true) :
    d'.textContent x = d.textContent x := by
  have hchildren := h.children_eq x hx hword
  simp only [textContent, h.sheds.kind_eq,
    hd.descendants_congr (h.sheds.wellFormed hd) hchildren]

lemma instructions_eq (h : d.Thins d' shed) (hd : d.WellFormed) :
    d'.instructions = d.instructions :=
  h.wordDescendants_eq hd List.mem_cons_self (by decide)

lemma runText_eq (h : d.Thins d' shed) (hd : d.WellFormed) (htop : top ∈ d.attachedNodes) :
    d'.runText top = d.runText top := by
  rw [runText, runText, h.wordDescendants_eq hd htop (by decide)]
  congr 1
  refine List.map_congr_left fun x hx => ?_
  obtain ⟨hbelow, hword⟩ := mem_wordDescendants.1 hx
  exact h.textContent_eq hd
    (mem_descendants_root_of_below hd htop (hd.mem_descendants.1 hbelow)) (.inl hword)

/-- A run that does not stay has no part of a field in it. -/
lemma isIdle_of_not_mem (h : d.Thins d' shed) (hd : d.WellFormed) {run : NodeId}
    (hrun : run ∈ d.runs) (hout : run ∉ d'.runs) : d.IsIdle run := by
  intro x hx
  by_contra hpart
  rw [Bool.not_eq_false] at hpart
  obtain ⟨hattached, hword⟩ := mem_wordElements.1 hrun
  have hbelow := hd.mem_descendants.1 hattached
  have hx' := mem_descendants_root_of_below hd (List.mem_cons_of_mem _ hattached)
    (hd.mem_descendants.1 hx)
  -- the way up from the part leads through the run
  have hparent := h.parent_eq x hx' hpart
  have habove : ∀ y, y = run ∨ d.Below y run → d'.parent y = d.parent y := fun y hy =>
    hparent y (.inr (hy.elim (· ▸ hd.mem_descendants.1 hx) (·.trans (hd.mem_descendants.1 hx))))
  refine hout (mem_wordElements.2 ⟨?_, (h.sheds.isWord_eq run "r").trans hword⟩)
  exact (h.sheds.wellFormed hd).mem_descendants.2 (hbelow.transfer habove)

lemma runs_eq (h : d.Thins d' shed) (hd : d.WellFormed) :
    d'.runs = d.runs.filter (· ∈ d'.runs) := by
  have hsublist : d'.runs.Sublist d.runs := by
    have hword : d'.isWord = d.isWord := funext₂ h.sheds.isWord_eq
    have hdescendants := h.sheds.descendants_sublist hd root
    rw [show d'.runs = (d'.descendants root).filter (d.isWord · "r") from hword ▸ rfl]
    exact hdescendants.filter _
  rw [← filter_eq_of_sublist hsublist hd.nodup_runs fun run _ => of_decide_eq_true]
  exact (List.filter_eq_self.2 fun run hrun => decide_eq_true hrun).symm

/-! ### The marks of a field -/

lemma markIn?_eq (h : d.Thins d' shed) (hd : d.WellFormed) (htop : top ∈ d.attachedNodes)
    (mark : FieldMark) : d'.markIn? mark top = d.markIn? mark top := by
  rw [markIn?, markIn?, h.wordDescendants_eq hd htop (by decide), h.sheds.fieldMark?_eq]

/-- What is shed beside a node has no mark in it. -/
lemma findSome?_markIn? (h : d.Thins d' shed) (hd : d.WellFormed) {beside : List NodeId}
    (hbeside : beside ⊆ d.descendants root) (mark : FieldMark) :
    (beside.filter (· ∉ shed)).findSome? (d'.markIn? mark) = beside.findSome? (d.markIn? mark) := by
  refine findSome?_filter (fun x hx =>
    h.markIn?_eq hd (List.mem_cons_of_mem _ (hbeside hx)) mark) fun x hx hout => ?_
  by_contra hsome
  obtain ⟨leaf, hleaf⟩ := Option.ne_none_iff_exists'.1 hsome
  obtain ⟨hbelow, hword⟩ := mem_wordDescendants.1 (List.mem_of_find?_eq_some hleaf)
  rw [hd.mem_descendants] at hbelow
  have hattached := mem_descendants_root_of_below hd (List.mem_cons_of_mem _ (hbeside hx)) hbelow
  have hparent := h.parent_eq leaf hattached (isFieldPart_iff.2 ⟨_, by decide, hword⟩) x
    (.inr hbelow)
  simp [h.sheds.not_mem_of_parent_eq hd hparent] at hout

/-- The element that holds a part of a field stays, in the same place. -/
lemma not_mem_of_parent (h : d.Thins d' shed) (hd : d.WellFormed) (hx : x ∈ d.descendants root)
    (hpart : d.isFieldPart x = true) (htop : d.parent x = some top) : top ∉ shed :=
  h.sheds.not_mem_of_parent_eq hd (h.parent_eq x hx hpart top (.inr (below_of_parent htop)))

lemma locatePrevious?_eq (h : d.Thins d' shed) (hd : d.WellFormed) (hroot : d.parent root = none)
    (hx : x ∈ d.descendants root) (hpart : d.isFieldPart x = true) (mark : FieldMark) :
    d'.locatePrevious? x mark = d.locatePrevious? x mark := by
  unfold locatePrevious?
  rw [h.parent_eq x hx hpart x (.inl rfl)]
  cases htop : d.parent x with
  | none => rfl
  | some top =>
    have hattached := mem_attachedNodes_of_below hd hroot (List.mem_cons_of_mem _ hx)
      (below_of_parent htop)
    simp only [List.findSome?_cons, h.markIn?_eq hd hattached,
      (h.sheds.besides_eq hd (h.not_mem_of_parent hd hx hpart htop)).2,
      h.findSome?_markIn? hd (besides_subset hd hroot hattached).2]

lemma locateNext?_eq (h : d.Thins d' shed) (hd : d.WellFormed) (hroot : d.parent root = none)
    (hx : x ∈ d.descendants root) (hpart : d.isFieldPart x = true) (mark : FieldMark) :
    d'.locateNext? x mark = d.locateNext? x mark := by
  unfold locateNext?
  rw [h.parent_eq x hx hpart x (.inl rfl)]
  cases htop : d.parent x with
  | none => rfl
  | some top =>
    have hattached := mem_attachedNodes_of_below hd hroot (List.mem_cons_of_mem _ hx)
      (below_of_parent htop)
    simp only [(h.sheds.besides_eq hd (h.not_mem_of_parent hd hx hpart htop)).1,
      h.findSome?_markIn? hd (besides_subset hd hroot hattached).1]

theorem locateTriad_eq (h : d.Thins d' shed) (hd : d.WellFormed) (hroot : d.parent root = none)
    (hx : x ∈ d.descendants root) (hpart : d.isFieldPart x = true) :
    d'.locateTriad x = d.locateTriad x := by
  unfold locateTriad
  rw [h.locatePrevious?_eq hd hroot hx hpart, h.locateNext?_eq hd hroot hx hpart]
  cases hseparator : d.locateNext? x .separator with
  | none => rfl
  | some separator =>
    have hmark := isFieldPart_iff.2 ⟨_, by decide, isWord_of_locateNext? hseparator⟩
    have hattached := mem_descendants_of_locateNext? hd hroot hx hseparator
    simp only [h.locateNext?_eq hd hroot hattached hmark]

lemma enclosingRun?_eq (h : d.Thins d' shed) (hd : d.WellFormed) (hx : x ∈ d.descendants root)
    (hpart : d.isFieldPart x = true) : d'.enclosingRun? x = d.enclosingRun? x :=
  nearest?_congr hd (fun y _ => h.sheds.isWord_eq y "r") (h.parent_eq x hx hpart)
    (d.level_le_size x) ((d.level_le_size x).trans h.sheds.pruned.size_eq.ge)

end Thins

/-! ## Simplification -/

/-- A pass sheds elements of presentation, runs and paragraphs. -/
lemma exists_sheds_of_reflTransGen (hd : d.WellFormed)
    (hsteps : Relation.ReflTransGen Strips d d') :
    ∃ shed, d.Sheds d' shed ∧
      ∀ id ∈ shed, d.IsPresentation id ∨ d.isWord id "r" = true ∨ d.isWord id "p" = true := by
  induction hsteps using Relation.ReflTransGen.head_induction_on with
  | refl => exact ⟨[], .refl _, fun id hid => nomatch hid⟩
  | @head d middle hstep _ ih =>
    obtain ⟨shed, hsheds, hout⟩ := hstep.exists_sheds hd
    obtain ⟨shed', hsheds', hout'⟩ := ih (hsheds.wellFormed hd)
    refine ⟨shed ++ shed', hsheds.trans hsheds' hd, fun id hid => ?_⟩
    rcases List.mem_append.1 hid with hid | hid
    · refine (hout id hid).imp_right fun hhollow => ?_
      rcases hhollow with ⟨hword, -⟩ | ⟨hparagraph, -⟩
      · exact hword
      · exact .inr hparagraph
    · simpa only [IsPresentation, hsheds.isWord_eq] using hout' id hid

/-- Whether markup of presentation and the parts of fields are apart: no element of presentation
holds a part of a field, or is inside a text element or an instruction. -/
structure PresentationApart (d : Document) : Prop where
  around : ∀ top ∈ d.attachedNodes, d.IsPresentation top → d.IsIdle top
  inside : ∀ top ∈ d.attachedNodes, d.isWord top "t" = true ∨ d.isWord top "instrText" = true →
    ∀ x ∈ d.descendants top, ¬ d.IsPresentation x

/-- Whether parts of fields are where they are expected: not in a break, and with no run or
paragraph inside a text element or an instruction. -/
structure PartsInPlace (d : Document) : Prop where
  breaks : ∀ top ∈ d.attachedNodes, d.isWord top "br" = true → d.IsIdle top
  texts : ∀ top ∈ d.attachedNodes, d.isWord top "t" = true ∨ d.isWord top "instrText" = true →
    ∀ x ∈ d.descendants top, d.isWord x "r" = false ∧ d.isWord x "p" = false

lemma isWord_eq_false_of_isFieldPart {x : NodeId} (h : d.isFieldPart x = true) {names : List String}
    (hnames : ∀ name ∈ names, name ∉ ["fldChar", "instrText", "t"]) :
    ∀ name ∈ names, d.isWord x name = false := by
  intro name hname
  obtain ⟨part, hpart, hword⟩ := isFieldPart_iff.1 h
  rw [Bool.eq_false_iff]
  exact fun hword' => hnames name hname (name_eq_of_isWord hword hword' ▸ hpart)

lemma stands_of_isFieldPart (hd : d.WellFormed) (hroot : d.parent root = none)
    (hin : ∀ x ∈ d.descendants root, d.InElements x) (hlook : d.PresentationApart)
    (hplace : d.PartsInPlace) {x : NodeId} (hx : x ∈ d.descendants root)
    (hpart : d.isFieldPart x = true) : d.Stands x := by
  have habove : ∀ {above}, d.Below above x → above ∈ d.attachedNodes ∧ ¬ d.IsIdle above := by
    intro above hbelow
    refine ⟨mem_attachedNodes_of_below hd hroot (List.mem_cons_of_mem _ hx) hbelow, fun hidle => ?_⟩
    rw [hidle x (hd.mem_descendants.2 hbelow)] at hpart
    cases hpart
  refine ⟨hd.isAttached_iff.2 (.inr hx), ⟨.inl ⟨?_, ?_⟩, ?_, fun above hbelow => ?_⟩, hin x hx⟩
  · obtain ⟨name, -, hword⟩ := isFieldPart_iff.1 hpart
    exact isElement_of_isWord hword
  · exact isWord_eq_false_of_isFieldPart hpart (by decide)
  · rintro above (rfl | hbelow) hpresentation
    · obtain ⟨name, hname, hword⟩ := hpresentation
      rw [isWord_eq_false_of_isFieldPart hpart (by decide) name hname] at hword
      cases hword
    · exact (habove hbelow).2 (hlook.around above (habove hbelow).1 hpresentation)
  · by_contra hbreak
    exact (habove hbelow).2
      (hplace.breaks above (habove hbelow).1 (Bool.not_eq_false _ ▸ hbreak))

/-- Simplification thins out a document, where fields and other markup are not mixed. -/
theorem exists_thins_simplify (hd : d.WellFormed) (hroot : d.parent root = none)
    (hin : ∀ x ∈ d.descendants root, d.InElements x) (hlook : d.PresentationApart)
    (hplace : d.PartsInPlace) : ∃ shed, d.Thins d.simplify shed := by
  obtain ⟨shed, hsheds, hout⟩ := exists_sheds_of_reflTransGen hd d.strips_simplify
  refine ⟨shed, hsheds, fun x hx hpart => ?_, fun x hx hword y hy => ?_⟩
  · exact ((stands_of_isFieldPart hd hroot hin hlook hplace hx hpart).of_reflTransGen hd
      d.strips_simplify).2
  · rw [hsheds.pruned.children_eq]
    refine List.filter_eq_self.2 fun child hchild => decide_eq_true fun hshed => ?_
    have hstep := below_of_parent (hd.parent_of_mem hchild)
    have hinside : child ∈ d.descendants x :=
      hd.mem_descendants.2 (hy.elim (· ▸ hstep) (·.trans hstep))
    obtain ⟨hrun, hparagraph⟩ := hplace.texts x (List.mem_cons_of_mem _ hx) hword child hinside
    rcases hout child hshed with hpresentation | hword' | hword'
    · exact hlook.inside x (List.mem_cons_of_mem _ hx) hword child hinside hpresentation
    · exact Bool.false_ne_true (hrun.symm.trans hword')
    · exact Bool.false_ne_true (hparagraph.symm.trans hword')

end Document

end WordFields
