import WordFields.Proofs.Field.Frame
import WordFields.Proofs.Markup.Building
import WordFields.Proofs.Tree.Ascent
import WordFields.Word.Simplification

/-!
# Simplified documents

Simplification takes out the elements of presentation, then the empty runs, then the empty
paragraphs, then the paragraphs of a line break, and does not come back to an earlier step.  Each
step only sheds attached nodes (`Document.Sheds`) and leaves nothing for itself to do, so a run or a
paragraph that is left over in the end had something below it that a later step took out, and this
is a paragraph (`exists_lost_of_isHollow`).  Where no paragraph is below a run or another paragraph,
one pass gives a simplified document (`isSimplified_simplify`); in general it takes several
(`isSimplified_iterate`), and a pass that changes nothing is the last one (`simplify_eq_self_iff`).
-/

namespace WordFields.Document

variable {d d' d'' : Document}

/-! ## What is left to do -/

/-- Whether an element is a run or a paragraph without content, or a paragraph that only holds a
forced line break. -/
def IsHollow (d : Document) (id : NodeId) : Prop :=
  ((d.isWord id "r" = true ∨ d.isWord id "p" = true) ∧ d.isEmptyElement id = true) ∨
    (d.isWord id "p" = true ∧ d.isBreakParagraph id = true)

instance (d : Document) : DecidablePred d.IsHollow := fun id =>
  inferInstanceAs (Decidable (((d.isWord id "r" = true ∨ d.isWord id "p" = true) ∧
    d.isEmptyElement id = true) ∨ (d.isWord id "p" = true ∧ d.isBreakParagraph id = true)))

/-- Whether simplification has nothing to take out of a document. -/
structure IsSimplified (d : Document) : Prop where
  bare : ∀ id, d.isAttached id = true → ∀ name ∈ presentationNames, d.isWord id name = false
  filled : ∀ id, d.isAttached id = true → ¬ d.IsHollow id

/-! ## Views of a node -/

section

variable (hkind : ∀ x, d'.kind x = d.kind x) {id : NodeId}
include hkind

lemma isEmptyElement_congr (hchildren : d'.children id = d.children id)
    (hdescendants : d'.descendants id = d.descendants id) :
    d'.isEmptyElement id = d.isEmptyElement id := by
  have hblank : d'.isBlankText = d.isBlankText := by
    funext x
    simp only [isBlankText, hkind]
  simp only [isEmptyElement, textContent, hkind, hchildren, hdescendants, hblank]

lemma significantChildren_congr (hchildren : d'.children id = d.children id) :
    d'.significantChildren id = d.significantChildren id := by
  simp only [significantChildren, hkind, hchildren]

lemma isForcedBreak_congr : d'.isForcedBreak id = d.isForcedBreak id := by
  simp only [isForcedBreak, isWord_congr (hkind id), wordAttribute?, attributeIn?, element?, hkind]

lemma isBreakParagraph_congr (hchildren : d'.children id = d.children id)
    (hbelow : ∀ child ∈ d.children id, d'.children child = d.children child) :
    d'.isBreakParagraph id = d.isBreakParagraph id := by
  unfold isBreakParagraph
  rw [significantChildren_congr hkind hchildren]
  split
  next run hrun =>
    have hmem : run ∈ d.children id :=
      List.mem_of_mem_filter (hrun.symm ▸ List.mem_singleton_self run)
    rw [isWord_congr (hkind run), significantChildren_congr hkind (hbelow run hmem)]
    simp only [isForcedBreak_congr hkind]
  next => rfl

end

lemma mem_wordElements {id : NodeId} {localName : String} :
    id ∈ d.wordElements localName ↔ id ∈ d.descendants root ∧ d.isWord id localName = true :=
  List.mem_filter

/-! ## Shedding -/

lemma WellFormed.length_descendants_le (h : d.WellFormed) (top : NodeId) :
    (d.descendants top).length ≤ d.size := by
  have hsubset : d.descendants top ⊆ List.range d.size := by
    intro id hid
    by_contra hout
    have hparent : d.parent id ≠ none := fun hparent =>
      not_below_of_parent_none hparent (h.mem_descendants.1 hid)
    obtain ⟨parent, hparent⟩ := Option.ne_none_iff_exists'.1 hparent
    exact hout (List.mem_range.2 (h.child_lt_size (h.mem_of_parent hparent)))
  simpa using (List.subperm_of_subset (h.nodup_descendants top) hsubset).length_le

/-- A change of a document that detaches attached nodes and does nothing else. -/
structure Sheds (d d' : Document) (shed : List NodeId) : Prop where
  pruned : d.Pruned d' shed fun _ => False
  attached : shed ⊆ d.descendants root

namespace Sheds

variable {shed shed' : List NodeId}

lemma refl (d : Document) : d.Sheds d [] :=
  ⟨.refl d, List.nil_subset _⟩

lemma of_removeAll (hd : d.WellFormed) {ids : List NodeId} (hids : ids ⊆ d.descendants root) :
    d.Sheds (d.removeAll ids) ids :=
  ⟨pruned_removeAll hd ids _, hids⟩

lemma kind_eq (h : d.Sheds d' shed) (x : NodeId) : d'.kind x = d.kind x :=
  (h.pruned.kind_eq x).resolve_right fun hedited => hedited.1

lemma wellFormed (h : d.Sheds d' shed) (hd : d.WellFormed) : d'.WellFormed :=
  h.pruned.wellFormed hd

/-- Nothing gets below a node. -/
lemma descendants_subset (h : d.Sheds d' shed) (hd : d.WellFormed) (top : NodeId) :
    d'.descendants top ⊆ d.descendants top := fun _ hid =>
  hd.mem_descendants.2 (((h.wellFormed hd).mem_descendants.1 hid).mono fun _ _ =>
    h.pruned.parent_of_parent)

lemma not_mem_descendants (h : d.Sheds d' shed) (hd : d.WellFormed) {id top : NodeId}
    (hid : id ∈ shed) : id ∉ d'.descendants top := by
  rw [(h.wellFormed hd).mem_descendants]
  refine not_below_of_parent_none ?_
  rw [h.pruned.parent_eq, if_pos hid]

lemma trans (h : d.Sheds d' shed) (h' : d'.Sheds d'' shed') (hd : d.WellFormed) :
    d.Sheds d'' (shed ++ shed') :=
  ⟨h.pruned.trans h'.pruned, List.append_subset.2
    ⟨h.attached, List.Subset.trans h'.attached (h.descendants_subset hd root)⟩⟩

lemma eq_of_nil (h : d.Sheds d' []) : d' = d := by
  refine ext_views h.pruned.size_eq h.kind_eq (fun x => ?_) fun x => ?_
  · rw [h.pruned.parent_eq, if_neg List.not_mem_nil]
  · rw [h.pruned.children_eq]
    exact List.filter_eq_self.2 fun child _ => decide_eq_true List.not_mem_nil

lemma isWord_eq (h : d.Sheds d' shed) (id : NodeId) (localName : String) :
    d'.isWord id localName = d.isWord id localName :=
  isWord_congr (h.kind_eq id) localName

lemma wordElements_subset (h : d.Sheds d' shed) (hd : d.WellFormed) (localName : String) :
    d'.wordElements localName ⊆ d.wordElements localName := by
  intro id hid
  obtain ⟨hmem, hword⟩ := mem_wordElements.1 hid
  exact mem_wordElements.2 ⟨h.descendants_subset hd root hmem,
    (h.isWord_eq id localName).symm.trans hword⟩

lemma not_mem_wordElements (h : d.Sheds d' shed) (hd : d.WellFormed) {id : NodeId}
    (hid : id ∈ shed) (localName : String) : id ∉ d'.wordElements localName :=
  fun hmem => h.not_mem_descendants hd hid (mem_wordElements.1 hmem).1

lemma length_descendants_lt (h : d.Sheds d' shed) (hd : d.WellFormed) (hne : shed ≠ []) :
    (d'.descendants root).length < (d.descendants root).length := by
  obtain ⟨first, hfirst⟩ := List.exists_mem_of_ne_nil _ hne
  have hsubset : first :: d'.descendants root ⊆ d.descendants root :=
    List.cons_subset.2 ⟨h.attached hfirst, h.descendants_subset hd root⟩
  have hnodup : (first :: d'.descendants root).Nodup := List.nodup_cons.2
    ⟨h.not_mem_descendants hd hfirst, (h.wellFormed hd).nodup_descendants root⟩
  exact (List.subperm_of_subset hnodup hsubset).length_le

/-- A node below which nothing is shed stays as empty or as full as it is. -/
lemma exists_below (h : d.Sheds d' shed) (hd : d.WellFormed) {id : NodeId}
    (hchanged : d'.isEmptyElement id ≠ d.isEmptyElement id ∨
      d'.isBreakParagraph id ≠ d.isBreakParagraph id) :
    ∃ lost ∈ shed, lost ∈ d.descendants id := by
  by_contra hnone
  push Not at hnone
  have hchildren : ∀ x, x = id ∨ d.Below id x → d'.children x = d.children x := by
    intro x hx
    rw [h.pruned.children_eq]
    refine List.filter_eq_self.2 fun child hchild => decide_eq_true fun hshed => ?_
    have hbelow := below_of_parent (hd.parent_of_mem hchild)
    refine hnone child hshed (hd.mem_descendants.2 ?_)
    rcases hx with rfl | hx
    · exact hbelow
    · exact hx.trans hbelow
  have hdescendants := hd.descendants_congr (h.wellFormed hd) hchildren
  rcases hchanged with hempty | hbreak
  · exact hempty (isEmptyElement_congr h.kind_eq (hchildren id (.inl rfl)) hdescendants)
  · exact hbreak (isBreakParagraph_congr h.kind_eq (hchildren id (.inl rfl)) fun child hchild =>
      hchildren child (.inr (below_of_parent (hd.parent_of_mem hchild))))

/-- What made an element hollow on the way is something below it, which was there from the start. -/
lemma exists_lost (h : d.Sheds d' shed) (h' : d'.Sheds d'' shed') (hd : d.WellFormed)
    {id : NodeId} {localName : String} (hwords : ∀ x ∈ shed', d'.isWord x localName = true)
    (hchanged : d''.isEmptyElement id ≠ d'.isEmptyElement id ∨
      d''.isBreakParagraph id ≠ d'.isBreakParagraph id) :
    ∃ lost ∈ d.descendants id, d.isWord lost localName = true ∧ lost ∉ d''.descendants id := by
  obtain ⟨lost, hlost, hbelow⟩ := h'.exists_below (h.wellFormed hd) hchanged
  refine ⟨lost, h.descendants_subset hd id hbelow, ?_, ?_⟩
  · exact (h.isWord_eq lost localName).symm.trans (hwords lost hlost)
  · exact h'.not_mem_descendants (h.wellFormed hd) hlost

end Sheds

/-! ## The steps -/

lemma exists_sheds_removeNamed (names : List String) (hd : d.WellFormed) :
    ∃ shed, d.Sheds (names.foldl (fun d name => (d.wordElements name).foldl remove d) d) shed ∧
      ∀ name ∈ names, (names.foldl (fun d name => (d.wordElements name).foldl remove d)
        d).wordElements name = [] := by
  induction names generalizing d with
  | nil => exact ⟨[], .refl d, fun _ hname => absurd hname List.not_mem_nil⟩
  | cons name names ih =>
    have hfirst : d.Sheds (d.removeAll (d.wordElements name)) (d.wordElements name) :=
      .of_removeAll hd (List.filter_subset_self _)
    obtain ⟨shed, hrest, hnone⟩ := ih (hfirst.wellFormed hd)
    refine ⟨_, hfirst.trans hrest hd, fun other hother => ?_⟩
    rcases List.mem_cons.1 hother with rfl | hother
    · refine List.eq_nil_iff_forall_not_mem.2 fun id hid => ?_
      have hmem := hrest.wordElements_subset (hfirst.wellFormed hd) other hid
      exact hfirst.not_mem_wordElements hd (hfirst.wordElements_subset hd other hmem) other hmem
    · exact hnone other hother

lemma exists_sheds_removePresentation (hd : d.WellFormed) :
    ∃ shed, d.Sheds d.removePresentation shed ∧
      ∀ name ∈ presentationNames, d.removePresentation.wordElements name = [] :=
  exists_sheds_removeNamed presentationNames hd

lemma removePresentation_eq_self (hnone : ∀ name ∈ presentationNames, d.wordElements name = []) :
    d.removePresentation = d := by
  have hfold : ∀ names ⊆ presentationNames,
      names.foldl (fun d name => (d.wordElements name).foldl remove d) d = d := by
    intro names hnames
    induction names with
    | nil => rfl
    | cons name names ih =>
      obtain ⟨hname, hnames⟩ := List.cons_subset.1 hnames
      rw [List.foldl_cons, hnone name hname]
      exact ih hnames
  exact hfold presentationNames (List.Subset.refl _)

/-- Each round but the last sheds something, so there are rounds enough. -/
lemma exists_sheds_removeEmptyWithin {localName : String} {rounds : Nat} (hd : d.WellFormed)
    (hrounds : (d.descendants root).length ≤ rounds) :
    ∃ shed, d.Sheds (removeEmptyWithin localName rounds d) shed ∧
      (∀ id ∈ shed, d.isWord id localName = true) ∧
      ∀ id ∈ (removeEmptyWithin localName rounds d).wordElements localName,
        (removeEmptyWithin localName rounds d).isEmptyElement id = false := by
  induction rounds generalizing d with
  | zero =>
    refine ⟨[], .refl d, fun _ hid => absurd hid List.not_mem_nil, fun id hid => ?_⟩
    have hnone := List.length_eq_zero_iff.1 (Nat.le_zero.1 hrounds)
    exact absurd (hnone ▸ (mem_wordElements.1 hid).1) List.not_mem_nil
  | succ rounds ih =>
    rw [removeEmptyWithin]
    split
    next hempty =>
      refine ⟨[], .refl d, fun _ hid => absurd hid List.not_mem_nil, fun id hid => ?_⟩
      exact Bool.eq_false_iff.2 (List.filter_eq_nil_iff.1 hempty id hid)
    next hempty =>
      have hround : d.Sheds (d.removeAll ((d.wordElements localName).filter d.isEmptyElement))
          ((d.wordElements localName).filter d.isEmptyElement) :=
        .of_removeAll hd fun id hid => (mem_wordElements.1 (List.mem_of_mem_filter hid)).1
      have hfewer := hround.length_descendants_lt hd hempty
      obtain ⟨shed, hrest, hwords, hfull⟩ :=
        ih (hround.wellFormed hd) (Nat.le_of_lt_succ (Nat.lt_of_lt_of_le hfewer hrounds))
      refine ⟨_, hround.trans hrest hd, fun id hid => ?_, hfull⟩
      rcases List.mem_append.1 hid with hid | hid
      · exact (mem_wordElements.1 (List.mem_of_mem_filter hid)).2
      · exact (hround.isWord_eq id localName).symm.trans (hwords id hid)

lemma exists_sheds_removeEmpty (hd : d.WellFormed) (localName : String) :
    ∃ shed, d.Sheds (d.removeEmpty localName) shed ∧
      (∀ id ∈ shed, d.isWord id localName = true) ∧
      ∀ id ∈ (d.removeEmpty localName).wordElements localName,
        (d.removeEmpty localName).isEmptyElement id = false :=
  exists_sheds_removeEmptyWithin hd (hd.length_descendants_le root)

lemma removeEmpty_eq_self {localName : String}
    (hfull : ∀ id ∈ d.wordElements localName, d.isEmptyElement id = false) :
    d.removeEmpty localName = d := by
  have hnone : (d.wordElements localName).filter d.isEmptyElement = [] :=
    List.filter_eq_nil_iff.2 fun id hid => Bool.eq_false_iff.1 (hfull id hid)
  unfold removeEmpty
  cases d.size with
  | zero => rfl
  | succ rounds => rw [removeEmptyWithin, hnone]

lemma sheds_removeBreakParagraphs (hd : d.WellFormed) :
    d.Sheds d.removeBreakParagraphs (d.paragraphs.filter d.isBreakParagraph) :=
  .of_removeAll hd fun _ hid => (mem_wordElements.1 (List.mem_of_mem_filter hid)).1

lemma removeBreakParagraphs_eq_self (hnone : ∀ id ∈ d.paragraphs, d.isBreakParagraph id = false) :
    d.removeBreakParagraphs = d := by
  have hnone' : d.paragraphs.filter d.isBreakParagraph = [] :=
    List.filter_eq_nil_iff.2 fun id hid => Bool.eq_false_iff.1 (hnone id hid)
  rw [removeBreakParagraphs, hnone', List.foldl_nil]

/-! ## A pass -/

/-- The documents between the steps of a pass, what each step sheds, and what it leaves none of. -/
structure Steps (d bare runless filled : Document) (looks runs paragraphs breaks : List NodeId) :
    Prop where
  sheds_looks : d.Sheds bare looks
  sheds_runs : bare.Sheds runless runs
  sheds_paragraphs : runless.Sheds filled paragraphs
  sheds_breaks : filled.Sheds d.simplify breaks
  no_looks : ∀ name ∈ presentationNames, bare.wordElements name = []
  full_runs : ∀ id ∈ runless.wordElements "r", runless.isEmptyElement id = false
  full_paragraphs : ∀ id ∈ filled.wordElements "p", filled.isEmptyElement id = false
  isWord_paragraphs : ∀ id ∈ paragraphs, runless.isWord id "p" = true
  mem_breaks_iff : ∀ id, id ∈ breaks ↔
    id ∈ filled.wordElements "p" ∧ filled.isBreakParagraph id = true

lemma exists_steps (hd : d.WellFormed) : ∃ bare runless filled looks runs paragraphs breaks,
    d.Steps bare runless filled looks runs paragraphs breaks := by
  obtain ⟨looks, hlooks, hno⟩ := exists_sheds_removePresentation hd
  have hbare := hlooks.wellFormed hd
  obtain ⟨runs, hruns, -, hfull⟩ := exists_sheds_removeEmpty hbare "r"
  have hrunless := hruns.wellFormed hbare
  obtain ⟨paragraphs, hparagraphs, hwords, hfull'⟩ := exists_sheds_removeEmpty hrunless "p"
  have hfilled := hparagraphs.wellFormed hrunless
  exact ⟨_, _, _, _, _, _, _, {
    sheds_looks := hlooks
    sheds_runs := hruns
    sheds_paragraphs := hparagraphs
    sheds_breaks := sheds_removeBreakParagraphs hfilled
    no_looks := hno
    full_runs := hfull
    full_paragraphs := hfull'
    isWord_paragraphs := hwords
    mem_breaks_iff := fun _ => List.mem_filter }⟩

lemma exists_sheds_simplify (hd : d.WellFormed) : ∃ shed, d.Sheds d.simplify shed := by
  obtain ⟨bare, runless, filled, looks, runs, paragraphs, breaks, h⟩ := exists_steps hd
  have hfilled := (h.sheds_looks.trans h.sheds_runs hd).trans h.sheds_paragraphs hd
  exact ⟨_, hfilled.trans h.sheds_breaks hd⟩

lemma wellFormed_simplify (hd : d.WellFormed) : d.simplify.WellFormed := by
  obtain ⟨shed, hsheds⟩ := exists_sheds_simplify hd
  exact hsheds.wellFormed hd

lemma kind_simplify (hd : d.WellFormed) (id : NodeId) : d.simplify.kind id = d.kind id := by
  obtain ⟨shed, hsheds⟩ := exists_sheds_simplify hd
  exact hsheds.kind_eq id

/-- No element of presentation is left. -/
lemma wordElements_simplify (hd : d.WellFormed) {name : String} (hname : name ∈ presentationNames) :
    d.simplify.wordElements name = [] := by
  obtain ⟨bare, runless, filled, looks, runs, paragraphs, breaks, h⟩ := exists_steps hd
  have hbare := h.sheds_looks.wellFormed hd
  have hrest := (h.sheds_runs.trans h.sheds_paragraphs hbare).trans h.sheds_breaks hbare
  have hsubset := hrest.wordElements_subset hbare name
  rw [h.no_looks name hname] at hsubset
  exact List.subset_nil.1 hsubset

/-- A run or a paragraph that is left over had a paragraph below it that was taken out. -/
theorem exists_lost_of_isHollow (hd : d.WellFormed) {id : NodeId}
    (hid : id ∈ d.simplify.descendants root) (hhollow : d.simplify.IsHollow id) :
    ∃ lost ∈ d.descendants id, d.isWord lost "p" = true ∧ lost ∉ d.simplify.descendants id := by
  obtain ⟨bare, runless, filled, looks, runs, paragraphs, breaks, h⟩ := exists_steps hd
  have htoRunless := h.sheds_looks.trans h.sheds_runs hd
  have hrunless := htoRunless.wellFormed hd
  have htoFilled := htoRunless.trans h.sheds_paragraphs hd
  have hbreaks : ∀ x ∈ breaks, filled.isWord x "p" = true := fun x hx =>
    (mem_wordElements.1 ((h.mem_breaks_iff x).1 hx).1).2
  have hfilled : d.simplify.isWord id "p" = true → id ∈ filled.wordElements "p" := fun hword =>
    h.sheds_breaks.wordElements_subset (htoFilled.wellFormed hd) "p"
      (mem_wordElements.2 ⟨hid, hword⟩)
  rcases hhollow with ⟨hrun | hparagraph, hempty⟩ | ⟨hparagraph, hbreak⟩
  · -- a run that lost a paragraph after the runs had been looked at
    have hrest := h.sheds_paragraphs.trans h.sheds_breaks hrunless
    refine htoRunless.exists_lost hrest hd (fun x hx => ?_) (.inl ?_)
    · rcases List.mem_append.1 hx with hx | hx
      · exact h.isWord_paragraphs x hx
      · exact (h.sheds_paragraphs.isWord_eq x "p").symm.trans (hbreaks x hx)
    · have hmem := hrest.wordElements_subset hrunless "r" (mem_wordElements.2 ⟨hid, hrun⟩)
      rw [hempty, h.full_runs id hmem]
      decide
  · refine htoFilled.exists_lost h.sheds_breaks hd hbreaks (.inl ?_)
    rw [hempty, h.full_paragraphs id (hfilled hparagraph)]
    decide
  · refine htoFilled.exists_lost h.sheds_breaks hd hbreaks (.inr fun hsame => ?_)
    have hshed := (h.mem_breaks_iff id).2 ⟨hfilled hparagraph, hsame.symm.trans hbreak⟩
    exact h.sheds_breaks.not_mem_descendants (htoFilled.wellFormed hd) hshed hid

/-! ## Passes to the end -/

/-- The document node is no element, so an attached element is one of those below it. -/
lemma mem_wordElements_of_isAttached (hd : d.WellFormed) (hroot : d.kind root = .document)
    {id : NodeId} {localName : String} (hattached : d.isAttached id = true)
    (hword : d.isWord id localName = true) : id ∈ d.wordElements localName := by
  rcases hd.isAttached_iff.1 hattached with rfl | hmem
  · simp [isWord, isElementIn, element?, hroot, NodeKind.element?] at hword
  · exact mem_wordElements.2 ⟨hmem, hword⟩

lemma IsHollow.mem_wordElements (hd : d.WellFormed) (hroot : d.kind root = .document) {id : NodeId}
    (hattached : d.isAttached id = true) (hhollow : d.IsHollow id) :
    ∃ localName, id ∈ d.wordElements localName ∧ (localName = "r" ∨ localName = "p") := by
  rcases hhollow with ⟨hrun | hparagraph, -⟩ | ⟨hparagraph, -⟩
  · exact ⟨"r", mem_wordElements_of_isAttached hd hroot hattached hrun, .inl rfl⟩
  · exact ⟨"p", mem_wordElements_of_isAttached hd hroot hattached hparagraph, .inr rfl⟩
  · exact ⟨"p", mem_wordElements_of_isAttached hd hroot hattached hparagraph, .inr rfl⟩

lemma isWord_eq_false_of_wordElements (hd : d.WellFormed) (hroot : d.kind root = .document)
    {id : NodeId} {name : String} (hattached : d.isAttached id = true)
    (hnone : d.wordElements name = []) : d.isWord id name = false := by
  refine Bool.eq_false_iff.2 fun hword => ?_
  have hmem := mem_wordElements_of_isAttached hd hroot hattached hword
  exact absurd (hnone ▸ hmem) List.not_mem_nil

/-- A pass changes nothing if and only if the document is simplified. -/
theorem simplify_eq_self_iff (hd : d.WellFormed) (hroot : d.kind root = .document) :
    d.simplify = d ↔ d.IsSimplified := by
  constructor
  · intro heq
    refine ⟨fun id hattached name hname => ?_, fun id hattached hhollow => ?_⟩
    · have hnone := wordElements_simplify hd hname
      rw [heq] at hnone
      exact isWord_eq_false_of_wordElements hd hroot hattached hnone
    · obtain ⟨_, hmem, -⟩ := hhollow.mem_wordElements hd hroot hattached
      obtain ⟨lost, hlost, -, hgone⟩ := exists_lost_of_isHollow hd
        (heq.symm ▸ (mem_wordElements.1 hmem).1) (heq.symm ▸ hhollow)
      exact hgone (heq.symm ▸ hlost)
  · intro h
    have hattached : ∀ {id : NodeId} {localName : String}, id ∈ d.wordElements localName →
        d.isAttached id = true ∧ d.isWord id localName = true := fun hid =>
      ⟨hd.isAttached_iff.2 (.inr (mem_wordElements.1 hid).1), (mem_wordElements.1 hid).2⟩
    have hlooks : d.removePresentation = d := removePresentation_eq_self fun name hname => by
      refine List.eq_nil_iff_forall_not_mem.2 fun id hid => ?_
      obtain ⟨hid, hword⟩ := hattached hid
      rw [h.bare id hid name hname] at hword
      cases hword
    have hruns : d.removeEmpty "r" = d := removeEmpty_eq_self fun id hid =>
      Bool.eq_false_iff.2 fun hempty =>
        h.filled id (hattached hid).1 (.inl ⟨.inl (hattached hid).2, hempty⟩)
    have hparagraphs : d.removeEmpty "p" = d := removeEmpty_eq_self fun id hid =>
      Bool.eq_false_iff.2 fun hempty =>
        h.filled id (hattached hid).1 (.inl ⟨.inr (hattached hid).2, hempty⟩)
    have hbreaks : d.removeBreakParagraphs = d := removeBreakParagraphs_eq_self fun id hid =>
      Bool.eq_false_iff.2 fun hbreak =>
        h.filled id (hattached hid).1 (.inr ⟨(hattached hid).2, hbreak⟩)
    rw [simplify, hlooks, hruns, hparagraphs, hbreaks]

/-- What a pass leaves: no element of presentation, and an empty run or paragraph or a paragraph of
a line break only where a paragraph below it was taken out.  A second pass changes nothing if and
only if there is nothing of this kind. -/
theorem simplify_leftover (hd : d.WellFormed) (hroot : d.kind root = .document) :
    (∀ id, d.simplify.isAttached id = true →
      (∀ name ∈ presentationNames, d.simplify.isWord id name = false) ∧
      (d.simplify.IsHollow id → ∃ lost ∈ d.descendants id,
        d.isWord lost "p" = true ∧ lost ∉ d.simplify.descendants id)) ∧
    (d.simplify.simplify = d.simplify ↔ d.simplify.IsSimplified) := by
  have hd' := wellFormed_simplify hd
  have hroot' := (kind_simplify hd root).trans hroot
  refine ⟨fun id hattached => ⟨fun name hname => ?_, fun hhollow => ?_⟩,
    simplify_eq_self_iff hd' hroot'⟩
  · exact isWord_eq_false_of_wordElements hd' hroot' hattached (wordElements_simplify hd hname)
  · obtain ⟨_, hmem, -⟩ := hhollow.mem_wordElements hd' hroot' hattached
    exact exists_lost_of_isHollow hd (mem_wordElements.1 hmem).1 hhollow

def nestedMarkup : String :=
  "<w:p xmlns:w=\"http://schemas.openxmlformats.org/wordprocessingml/2006/main\">" ++
    "<w:r><w:p/></w:r><w:r><w:t>x</w:t></w:r></w:p>"

/-- A page with a run that only holds an empty paragraph. -/
def nestedPage : Document :=
  ofForest [.word "p" [wordDeclaration]
    [.word "r" [] [.word "p" [] []], RunContent.tree (.text "x")]]

lemma parse_nestedMarkup : Markup.parse nestedMarkup = .ok nestedPage := by
  decide +kernel

/-- The run is left over, and the paragraph that it held is gone. -/
theorem simplify_leftover_nested :
    nestedPage.WellFormed ∧ nestedPage.kind root = .document ∧
      nestedPage.simplify.descendants root = [1, 2, 4, 5, 6] ∧
      ∃ lost ∈ nestedPage.descendants 2, nestedPage.isWord lost "p" = true ∧
        lost ∉ nestedPage.simplify.descendants 2 := by
  have hd : nestedPage.WellFormed := (displays_ofForest _).wellFormed
  refine ⟨hd, rfl, by decide +kernel, ?_⟩
  exact ((simplify_leftover hd rfl).1 2 (by decide +kernel)).2 (by decide +kernel)

/-- A second pass can change what a pass has left. -/
theorem not_isSimplified_simplify_nested :
    ∃ d, Markup.parse nestedMarkup = .ok d ∧ ¬ d.simplify.IsSimplified ∧
      d.simplify.simplify ≠ d.simplify := by
  refine ⟨nestedPage, parse_nestedMarkup, fun h => ?_, by decide +kernel⟩
  exact h.filled 2 (by decide +kernel) (by decide +kernel)

/-- Where no paragraph is below a run or another paragraph, a pass leaves nothing to simplify. -/
theorem isSimplified_simplify (hd : d.WellFormed) (hroot : d.kind root = .document)
    (hflat : ∀ id ∈ d.runs ++ d.paragraphs, d.wordDescendants id "p" = []) :
    d.simplify.IsSimplified := by
  obtain ⟨shed, hsheds⟩ := exists_sheds_simplify hd
  have hd' := wellFormed_simplify hd
  have hroot' := (kind_simplify hd root).trans hroot
  refine ⟨fun id hattached name hname => ?_, fun id hattached hhollow => ?_⟩
  · exact isWord_eq_false_of_wordElements hd' hroot' hattached (wordElements_simplify hd hname)
  · obtain ⟨localName, hmem, hname⟩ := hhollow.mem_wordElements hd' hroot' hattached
    obtain ⟨lost, hlost, hword, -⟩ :=
      exists_lost_of_isHollow hd (mem_wordElements.1 hmem).1 hhollow
    have hid : id ∈ d.runs ++ d.paragraphs := by
      have hmem := hsheds.wordElements_subset hd localName hmem
      rcases hname with rfl | rfl
      · exact List.mem_append_left _ hmem
      · exact List.mem_append_right _ hmem
    have hmem : lost ∈ d.wordDescendants id "p" := List.mem_filter.2 ⟨hlost, hword⟩
    rw [hflat id hid] at hmem
    cases hmem

lemma WellFormed.isSimplified_iterate (hd : d.WellFormed) (hroot : d.kind root = .document)
    {rounds : Nat} (hrounds : (d.descendants root).length ≤ rounds) :
    (simplify^[rounds] d).IsSimplified := by
  induction rounds generalizing d with
  | zero =>
    obtain ⟨shed, hsheds⟩ := exists_sheds_simplify hd
    have hnone := List.length_eq_zero_iff.1 (Nat.le_zero.1 hrounds)
    obtain rfl : shed = [] := List.subset_nil.1 (hnone ▸ hsheds.attached)
    exact (simplify_eq_self_iff hd hroot).1 hsheds.eq_of_nil
  | succ rounds ih =>
    obtain ⟨shed, hsheds⟩ := exists_sheds_simplify hd
    rcases eq_or_ne shed [] with rfl | hne
    · rw [Function.iterate_fixed hsheds.eq_of_nil]
      exact (simplify_eq_self_iff hd hroot).1 hsheds.eq_of_nil
    · rw [Function.iterate_succ_apply]
      have hfewer := hsheds.length_descendants_lt hd hne
      exact ih (wellFormed_simplify hd) ((kind_simplify hd root).trans hroot)
        (Nat.le_of_lt_succ (Nat.lt_of_lt_of_le hfewer hrounds))

/-- Repeated passes lead to a simplified document. -/
theorem isSimplified_iterate (hd : d.WellFormed) (hroot : d.kind root = .document) :
    (simplify^[d.size] d).IsSimplified :=
  hd.isSimplified_iterate hroot (hd.length_descendants_le root)

end WordFields.Document
