import WordFields.Proofs.Field.Composition
import WordFields.Proofs.Field.Refilling

/-!
# What placeholders decide

The text that substitution puts into text elements and the result that an IF field is expected to
show are for the eye.  If no text element is in an instruction, they do not decide what is reported,
which IF fields are applied, which runs are taken out, and what is written outside of the text
elements that are substituted (`processDocument_display`).

Either no run is inside another for this, or both placeholders are empty or none is.  Otherwise a
marker run can lose an inner run before it is cut, and with the inner run a text that one of the
documents does not have; the texts behind it are then kept by the wrong sides
(`not_processDocument_display_nested`).
-/

namespace WordFields

namespace Document

variable {d d' : Document}

/-! ## Text elements and instructions -/

/-- Whether no text element is in an instruction. -/
def TextsApart (d : Document) : Prop :=
  ∀ instruction text, d.isWord instruction "instrText" = true → d.isWord text "t" = true →
    ¬ d.Below instruction text

namespace Substituted

variable {options : Options} {targets : List (NodeId × String)}

section

variable (h : Substituted d d' options targets) (hd : d.WellFormed)

include h hd

lemma below_of_below {top x : NodeId} (hx : x < d.size) (hbelow : d'.Below top x) :
    d.Below top x := by
  induction hbelow using Relation.TransGen.head_induction_on with
  | single hparent => exact below_of_parent (h.parent_of_parent hd hx hparent)
  | head hparent _ ih =>
    have hold := h.parent_of_parent hd hx hparent
    exact (ih (lt_size_of_mem_children (hd.mem_of_parent hold))).trans (below_of_parent hold)

lemma textsApart (hapart : d.TextsApart) : d'.TextsApart := by
  intro instruction text hinstruction htext hbelow
  have hold := (h.isElementIn_eq text _ _).symm.trans htext
  exact hapart instruction text ((h.isElementIn_eq instruction _ _).symm.trans hinstruction) hold
    (h.below_of_below hd (lt_size_of_isElement (isElement_of_isWord hold)) hbelow)

/-- What is found below a node was found there before. -/
lemma mem_wordDescendants {top x : NodeId} {localName : String}
    (hx : x ∈ d'.wordDescendants top localName) : x ∈ d.wordDescendants top localName := by
  obtain ⟨hbelow, hword⟩ := List.mem_filter.1 hx
  have hold := (h.isElementIn_eq x _ _).symm.trans hword
  have hlt := lt_size_of_isElement (isElement_of_isWord hold)
  exact List.mem_filter.2
    ⟨hd.mem_descendants.2 (h.below_of_below hd hlt (h.wellFormed.mem_descendants.1 hbelow)), hold⟩

/-- No run comes into another. -/
lemma wordDescendants_run_eq_nil (hflat : ∀ run ∈ d.runs, d.wordDescendants run "r" = []) :
    ∀ run ∈ d'.runs, d'.wordDescendants run "r" = [] := by
  intro run hrun
  refine List.eq_nil_iff_forall_not_mem.2 fun x hx => ?_
  have hold := h.mem_wordDescendants hd hx
  rw [hflat run (h.mem_wordDescendants hd hrun)] at hold
  cases hold

end

end Substituted

/-! ## Two passes over merge fields -/

/-- The result of a merge field is in a text element. -/
lemma isWord_of_mergePlace (hd : d.WellFormed) {field : MergeField} {element : NodeId}
    {path : String} (h : d.mergePlace field = .ok (element, path)) :
    d.isWord element "t" = true := by
  unfold mergePlace at h
  split at h
  · cases h
  · split at h
    · cases h
    · split at h
      · cases h
      next hresult =>
        cases h
        exact (resultText?_some hd hresult).1

namespace Paired

variable {n : Nat} {T : NodeId → NodeId → Prop} {veiled : NodeId → Prop} {strict : Prop}
  {options options' : Options}

/-- Elements are related to themselves only. -/
lemma eq_of_isElement (h : Paired n d d' T veiled strict) {x x' : NodeId} (hx : T x x')
    (helement : d.isElement x = true) : x' = x :=
  h.biUnique.2 hx (h.kept (h.lt_of_isElement helement))

lemma runs_eq (h : Paired n d d' T veiled strict) : d'.runs = d.runs := by
  rw [eq_comm, ← List.forall₂_eq_eq_eq]
  refine (rel_mem h.runs).imp fun run run' ⟨hmem, _, hrun⟩ => ?_
  exact (h.eq_of_isElement hrun (isElement_of_isWord (List.mem_filter.1 hmem).2)).symm

lemma enclosingRun?_eq (h : Paired n d d' T veiled strict) {x : NodeId} (hx : T x x) :
    d'.enclosingRun? x = d.enclosingRun? x := by
  rcases rel_iff.1 (h.enclosingRun? hx) with ⟨hnone, hnone'⟩ | ⟨run, run', hrun, hrun', hrel⟩
  · rw [hnone, hnone']
  · have hword : d.isWord run "r" = true := (h.wellFormed.nearest?_eq_some_iff.1 hrun).2.1
    rw [hrun, hrun', h.eq_of_isElement hrel (isElement_of_isWord hword)]

/-- The same is done for a merge field. -/
lemma mergeAction_eq (h : Paired n d d' T veiled strict) {field : MergeField}
    (hword : d.isWord field.instruction "instrText" = true) :
    d'.mergeAction field = d.mergeAction field := by
  have hself := h.kept (h.lt_of_isElement (isElement_of_isWord hword))
  rw [Document.mergeAction_eq, Document.mergeAction_eq]
  rcases h.alike.mergePlace hself rfl hword with
    ⟨diagnostic, herror, herror'⟩ | ⟨element, element', path, hplace, hplace', hrel⟩
  · rw [herror, herror']
  · have helement := isElement_of_isWord (isWord_of_mergePlace h.wellFormed hplace)
    obtain rfl := h.eq_of_isElement hrel helement
    have hattribute : d'.attribute? element' mergeAttribute =
        d.attribute? element' mergeAttribute := by
      rw [attribute?, attribute?, h.element?_eq hrel]
    simp only [hplace, hplace', hattribute]

/-- What is done for a merge field leaves a pair, in which the element of a substitution is
veiled. -/
lemma apply (h : Paired n d d' T veiled strict) (ho : options.SameMerge options' strict)
    (hapart : d.TextsApart) (field : MergeField) :
    ∃ U, Paired n ((d.mergeAction field).apply d options) ((d.mergeAction field).apply d' options')
      U (fun x => veiled x ∨ x ∈ (d.mergeAction field).target?.toList.map Prod.fst) strict := by
  cases haction : d.mergeAction field with
  | report diagnostic => exact ⟨T, by simpa [MergeAction.apply, MergeAction.target?] using h⟩
  | keep => exact ⟨T, by simpa [MergeAction.apply, MergeAction.target?] using h⟩
  | substitute x path =>
    obtain ⟨hword, top, hparent⟩ := mergeAction_substitute h.wellFormed haction
    have hself := h.kept (h.lt_of_isElement (isElement_of_isWord hword))
    obtain ⟨U, hU⟩ := h.substitute hself hword hparent
      (fun hinstruction => hapart _ x hinstruction hword) ho path
    exact ⟨U, by simpa [MergeAction.apply, MergeAction.target?] using hU⟩

variable {result result' : PassResult}

/-- A merge field is counted and reported alike. -/
lemma mergeStep_eq (h : Paired n result.document result'.document T veiled strict)
    (hcount : result'.count = result.count)
    (hdiagnostics : result'.diagnostics = result.diagnostics) {field : MergeField}
    (hword : result.document.isWord field.instruction "instrText" = true)
    (runs : List NodeId) :
    (mergeStep options' runs result' field).count = (mergeStep options runs result field).count ∧
      (mergeStep options' runs result' field).diagnostics =
        (mergeStep options runs result field).diagnostics := by
  have haction := h.mergeAction_eq hword
  have hself := h.kept (h.lt_of_isElement (isElement_of_isWord hword))
  constructor
  · rw [count_mergeStep, count_mergeStep, haction, hcount]
  · simp only [mergeStep, haction]
    cases result.document.mergeAction field with
    | report diagnostic => simp only [hdiagnostics, h.enclosingRun?_eq hself]
    | keep => exact hdiagnostics
    | substitute element path => exact hdiagnostics

/-- Passes over merge fields in a pair leave a pair, in which the elements that were substituted are
veiled, and count and report the same. -/
theorem foldl_mergeStep (ho : options.SameMerge options' strict) (runs : List NodeId)
    {fields : List MergeField} (result result' : PassResult)
    (h : Paired n result.document result'.document T veiled strict)
    (hapart : result.document.TextsApart)
    (hfields : ∀ field ∈ fields, result.document.isWord field.instruction "instrText" = true)
    (hcount : result'.count = result.count)
    (hdiagnostics : result'.diagnostics = result.diagnostics) :
    let after := fields.foldl (mergeStep options runs) result
    let after' := fields.foldl (mergeStep options' runs) result'
    (∃ U, Paired n after.document after'.document U (fun x => veiled x ∨
        x ∈ (mergeTargets options result.document fields).map Prod.fst) strict) ∧
      after'.count = after.count ∧ after'.diagnostics = after.diagnostics ∧
        mergeTargets options' result'.document fields =
          mergeTargets options result.document fields := by
  induction fields generalizing T veiled result result' with
  | nil => exact ⟨⟨T, by simpa [mergeTargets, mergeActions] using h⟩, hcount, hdiagnostics, rfl⟩
  | cons field fields ih =>
    obtain ⟨hword, hwords⟩ := List.forall_mem_cons.1 hfields
    have haction := h.mergeAction_eq hword
    obtain ⟨hcount, hdiagnostics⟩ := h.mergeStep_eq hcount hdiagnostics hword runs
    obtain ⟨U, hU⟩ := h.apply ho hapart field
    have hsubstituted := substituted_apply h.wellFormed options field
    have hdocument := document_mergeStep options runs result field
    have hdocument' := document_mergeStep options' runs result' field
    rw [haction] at hdocument'
    rw [← hdocument] at hU hsubstituted
    rw [← hdocument'] at hU
    obtain ⟨⟨V, hV⟩, hcount, hdiagnostics, htargets⟩ := ih _ _ hU
      (hsubstituted.textsApart h.wellFormed hapart) (fun other hother =>
        (hsubstituted.isElementIn_eq other.instruction _ _).trans (hwords other hother))
      hcount hdiagnostics
    rw [hdocument] at hV htargets
    rw [hdocument'] at htargets
    rw [mergeTargets_cons, mergeTargets_cons, haction, htargets]
    refine ⟨⟨V, ?_⟩, hcount, hdiagnostics, rfl⟩
    simpa only [List.foldl_cons, List.map_append, List.mem_append, or_assoc] using hV

/-- The same runs are taken out of the two documents. -/
lemma removed_eq (h : Paired n d d' T veiled strict)
    (hpolicy : options'.elsePolicy = options.elsePolicy) (context : DataContext) :
    (d'.ifEdits context options').flatMap FieldEdit.removed =
      (d.ifEdits context options).flatMap FieldEdit.removed := by
  rw [eq_comm, ← List.forall₂_eq_eq_eq]
  refine (rel_mem (h.removed hpolicy context)).imp fun run run' ⟨hmem, _, hrun⟩ => ?_
  obtain ⟨edit, hedit, hremoved⟩ := List.mem_flatMap.1 hmem
  have hruns := mem_runs_of_mem_ifEdits hedit
  rw [FieldEdit.run_eq_of_mem (.inl hremoved)] at hruns
  exact (h.eq_of_isElement hrun (isElement_of_isWord (List.mem_filter.1 hruns).2)).symm

end Paired

/-- A document and itself, with nothing veiled. -/
lemma WellFormed.paired (hd : d.WellFormed) (hroot : root < d.size) (strict : Prop) :
    Paired d.size d d (fun x x' => x = x' ∧ x < d.size) (fun _ => False) strict where
  wellFormed := hd
  wellFormed' := hd
  biUnique := ⟨fun _ _ _ hx hy => hx.1.trans hy.1.symm, fun _ _ _ hx hy => hx.1.symm.trans hy.1⟩
  root := ⟨rfl, hroot⟩
  isWord_veiled := False.elim
  not_in_instruction := False.elim
  parent {x x'} hx := by
    obtain ⟨rfl, -⟩ := hx
    cases hparent : d.parent x with
    | none => exact .none
    | some top => exact .some ⟨rfl, lt_size_of_mem_children (hd.mem_of_parent hparent)⟩
  children {x x'} hx _ := by
    obtain ⟨rfl, -⟩ := hx
    exact List.forall₂_same.2 fun child hchild => ⟨rfl, hd.child_lt_size hchild⟩
  holdsUnmarked _ := False.elim
  kind hx := .inl (hx.1 ▸ rfl)
  strict_of_veiled _ _ := False.elim
  kept hx := ⟨rfl, hx⟩
  stored hx := ⟨hx.2, hx.1 ▸ hx.2⟩
  lt_of_isElement := lt_size_of_isElement

/-- The elements that the pass over merge fields substitutes if the options enable it. -/
def substitutedElements (d : Document) (options : Options) : List NodeId :=
  if options.mergeFields then (mergeTargets options d d.mergeFields).map Prod.fst else []

/-- Passes over merge fields with different placeholders count and report the same, substitute the
same elements and leave documents that mirror each other but for the texts in them. -/
theorem mergePass_paired (hd : d.WellFormed) (hroot : root < d.size) (hapart : d.TextsApart)
    {options options' : Options} {strict : Prop}
    (hflag : options'.mergeFields = options.mergeFields)
    (ho : options.mergeFields = true → options.SameMerge options' strict) :
    (∃ T, Paired d.size (d.mergePass options).document (d.mergePass options').document T
        (· ∈ d.substitutedElements options) strict) ∧
      (d.mergePass options').count = (d.mergePass options).count ∧
      (d.mergePass options').diagnostics = (d.mergePass options).diagnostics ∧
      d.substitutedElements options' = d.substitutedElements options := by
  have hself := hd.paired hroot strict
  simp only [mergePass, substitutedElements, hflag]
  split
  next henabled =>
    obtain ⟨⟨T, hT⟩, hcount, hdiagnostics, htargets⟩ :=
      Paired.foldl_mergeStep (ho henabled) d.runs ⟨d, 0, []⟩ ⟨d, 0, []⟩ hself hapart
        (fun field hfield => isWord_of_mem_mergeFields hfield) rfl rfl
    refine ⟨⟨T, ?_⟩, hcount, hdiagnostics, congrArg _ htargets⟩
    rw [processMergeFields, processMergeFields]
    simpa only [false_or] using hT
  next => exact ⟨⟨_, by simpa only [List.not_mem_nil] using hself⟩, rfl, rfl, rfl⟩

/-! ## Veiling elements -/

/-- A document without what is in some elements. -/
def veil (d : Document) (ids : List NodeId) : Document :=
  ids.foldl clearChildren d

lemma kind_veil (d : Document) (ids : List NodeId) (x : NodeId) :
    (d.veil ids).kind x = d.kind x := by
  induction ids generalizing d with
  | nil => rfl
  | cons id ids ih => exact (ih (d.clearChildren id)).trans (kind_clearChildren d id x)

/-- Without what is in veiled elements nothing is veiled. -/
lemma Mirrors.veil {T : NodeId → NodeId → Prop} {veiled : NodeId → Prop} {strict : Prop}
    (h : Mirrors d d' T veiled strict) {ids : List NodeId} (hids : ∀ x ∈ ids, T x x)
    (hveiled : ∀ x, veiled x → x ∈ ids) :
    Mirrors (d.veil ids) (d'.veil ids) T (fun _ => False) strict := by
  induction ids generalizing d d' veiled with
  | nil =>
    obtain rfl : veiled = fun _ => False :=
      funext fun x => eq_false fun hx => List.not_mem_nil (hveiled x hx)
    exact h
  | cons id ids ih =>
    obtain ⟨hid, hrest⟩ := List.forall_mem_cons.1 hids
    have hcleared : Mirrors (d.clearChildren id) (d'.clearChildren id) T
        (fun x => veiled x ∧ x ≠ id) strict :=
      h.clearChildren hid (fun x hne => and_iff_left hne) (fun hself => absurd rfl hself.2)
        fun hself => absurd rfl hself.2
    exact ih hcleared hrest fun x hx => List.mem_of_ne_of_mem hx.2 (hveiled x hx.1)

/-! ## Both passes -/

section

variable (hd : d.WellFormed) (options : Options)

include hd

lemma exists_substituted_mergePass :
    ∃ targets, Substituted d (d.mergePass options).document options targets ∧
      targets.map Prod.fst = d.substitutedElements options := by
  simp only [mergePass, substitutedElements]
  split
  · refine ⟨mergeTargets options d d.mergeFields, ?_, rfl⟩
    exact processMergeFields_document d options ▸ substituted_mergeTargets hd options d.mergeFields
  · exact ⟨[], .refl hd options, rfl⟩

end

/-- The passes leave the document node alone. -/
lemma Substituted.kind_root_ifPass {options : Options} {targets : List (NodeId × String)}
    (h : Substituted d d' options targets) (hlt : root < d.size) (hroot : d.kind root = .document)
    (context : DataContext) : (d'.ifPass context options).document.kind root = .document := by
  have hkind : d'.kind root = .document := by
    refine (h.kind_eq root hlt fun hmem => ?_).trans hroot
    obtain ⟨e, he⟩ := exists_element_of_isWord (h.isWord root hmem)
    rw [hroot] at he
    cases he
  rw [ifPass]
  split
  · exact kind_root_processIfFields h.wellFormed hkind context options
  · exact hkind

/-- Passes over IF fields do the same to documents that mirror each other. -/
lemma Mirrors.ifPass {T : NodeId → NodeId → Prop} {veiled : NodeId → Prop} {strict : Prop}
    (h : Mirrors d d' T veiled strict) {options options' : Options}
    (hpolicy : options'.elsePolicy = options.elsePolicy)
    (hflag : options'.ifFields = options.ifFields) (context : DataContext)
    (hcase : options.ifFields = true →
      strict ∨ ∀ run ∈ d.runs, d.wordDescendants run "r" = []) :
    Mirrors (d.ifPass context options).document (d'.ifPass context options').document T veiled
        strict ∧
      (d'.ifPass context options').count = (d.ifPass context options).count ∧
      (d'.ifPass context options').diagnostics = (d.ifPass context options).diagnostics := by
  rw [Document.ifPass, Document.ifPass, hflag]
  split
  next henabled =>
    exact ⟨h.processIfFields hpolicy context (hcase henabled), h.count_eq hpolicy context,
      h.diagnostics_eq hpolicy context⟩
  next => exact ⟨h, rfl, rfl⟩

end Document

open Document Markup

/-- The placeholders of the options do not decide what is reported, which IF fields are applied,
which runs are taken out, and what there is outside of the texts that are substituted. -/
theorem processDocument_display {xml : String} {d : Document} (hparse : parse xml = .ok d)
    (hapart : d.TextsApart) (context : DataContext) {options options' : Options}
    (hsame : options' = { options with
      placeholder := options'.placeholder, ifPlaceholder := options'.ifPlaceholder })
    (hunmarked : Marker.occursIn options.placeholder.toList = false)
    (hunmarked' : Marker.occursIn options'.placeholder.toList = false)
    (hcase : options.mergeFields = true → options.ifFields = true →
      options'.placeholder.isEmpty = options.placeholder.isEmpty ∨
        ∀ run ∈ d.runs, d.wordDescendants run "r" = []) :
    let merged := (d.mergePass options).document
    let merged' := (d.mergePass options').document
    let pruned := (merged.ifPass context options).document
    let pruned' := (merged'.ifPass context options').document
    let elements := d.substitutedElements options
    (∃ diagnostics, processDocument xml context options = .ok ⟨pruned.toMarkup, diagnostics⟩ ∧
        processDocument xml context options' = .ok ⟨pruned'.toMarkup, diagnostics⟩) ∧
      d.substitutedElements options' = elements ∧ merged'.runs = merged.runs ∧
      ((merged'.ifSpans options').1.flatMap (IfSpan.applied context)).map IfSpan.heading =
        ((merged.ifSpans options).1.flatMap (IfSpan.applied context)).map IfSpan.heading ∧
      (merged'.ifEdits context options').flatMap FieldEdit.removed =
        (merged.ifEdits context options).flatMap FieldEdit.removed ∧
      (∀ x ∈ elements, d.isWord x "t" = true ∧ pruned.HoldsUnmarked x ∧ pruned'.HoldsUnmarked x) ∧
      ∃ trees, (pruned.veil elements).Displays trees ∧ (pruned'.veil elements).Displays trees := by
  intro merged merged' pruned pruned' elements
  have hd := wellFormed_of_parse hparse
  obtain ⟨hcomments, hpolicy, hmerge, hif⟩ : options'.mergeComments = options.mergeComments ∧
      options'.elsePolicy = options.elsePolicy ∧ options'.mergeFields = options.mergeFields ∧
      options'.ifFields = options.ifFields := by
    rw [hsame]
    exact ⟨rfl, rfl, rfl, rfl⟩
  set strict := options.mergeFields = true →
    options'.placeholder.isEmpty = options.placeholder.isEmpty
  have ho : options.mergeFields = true → options.SameMerge options' strict := fun henabled =>
    ⟨hcomments, hunmarked, hunmarked', fun hstrict => hstrict henabled⟩
  obtain ⟨content, hbuilds, -⟩ := exists_content hparse
  have hroot : root < d.size := hbuilds.eq_ofForest ▸ root_lt_size_ofForest _
  have hkind : d.kind root = .document := hbuilds.displays.shows_root.kind_eq
  obtain ⟨⟨T, hmerged⟩, -, hdiagnostics, helements⟩ :=
    mergePass_paired hd hroot hapart hmerge ho
  obtain ⟨targets, hsubstituted, htargets⟩ := exists_substituted_mergePass hd options
  have hruns : options.ifFields = true → strict ∨ ∀ run ∈ merged.runs,
      merged.wordDescendants run "r" = [] := by
    intro henabled
    by_cases hmerging : options.mergeFields = true
    · exact (hcase hmerging henabled).imp (fun hsame _ => hsame)
        (hsubstituted.wordDescendants_run_eq_nil hd)
    · exact .inl fun htrue => absurd htrue hmerging
  obtain ⟨hpruned, -, hdiagnostics'⟩ := hmerged.toMirrors.ifPass hpolicy hif context hruns
  have hword : ∀ x ∈ elements, d.isWord x "t" = true := fun x hx =>
    hsubstituted.isWord x (htargets ▸ hx)
  have hself : ∀ x ∈ elements, T x x := fun x hx =>
    hmerged.kept (lt_size_of_isElement (isElement_of_isWord (hword x hx)))
  refine ⟨⟨_, processDocument_eq hparse context options, ?_⟩, helements, hmerged.runs_eq,
    hmerged.applied_eq hpolicy context, hmerged.removed_eq hpolicy context, fun x hx => ?_, ?_⟩
  · rw [processDocument_eq hparse, hdiagnostics, hdiagnostics']
  · exact ⟨hword x hx, hpruned.holdsUnmarked (hself x hx) hx⟩
  · refine (hpruned.veil hself fun x hx => hx).exists_displays ?_
    rw [kind_veil]
    exact hsubstituted.kind_root_ifPass hroot hkind context

namespace Document

/-! ## A run in a run with a marker -/

/-- A merge field in an IF field, with its result in a run that is inside a run with a marker. -/
def nestedRunMarkup : String := Text.concat
  ["<w:p xmlns:w=\"http://schemas.openxmlformats.org/wordprocessingml/2006/main\">",
    "<w:r><w:fldChar w:fldCharType=\"begin\"/></w:r>",
    "<w:r><w:instrText>IF \"a\" = \"1\" \"%iftrue%\" \"%iffalse%\"</w:instrText></w:r>",
    "<w:r><w:fldChar w:fldCharType=\"separate\"/></w:r><w:r><w:t>y</w:t></w:r>",
    "<w:r><w:fldChar w:fldCharType=\"end\"/></w:r>",
    "<w:r><w:fldChar w:fldCharType=\"begin\"/></w:r>",
    "<w:r><w:instrText>MERGEFIELD x</w:instrText></w:r>",
    "<w:r><w:fldChar w:fldCharType=\"separate\"/></w:r>",
    "<w:r><w:r><w:t>y</w:t></w:r><w:t>a%else%b</w:t></w:r>",
    "<w:r><w:fldChar w:fldCharType=\"end\"/></w:r><w:r><w:t>%end%</w:t></w:r></w:p>"]

def nestedRunPage : Document :=
  ⟨(⟨.document, none, [1]⟩ ::
    ⟨.element (.word "p" [wordDeclaration]), some 0, [2, 4, 7, 9, 12, 14, 16, 19, 21, 27, 29]⟩ ::
    (fieldNodes 2 conditionalInstruction ++
      [⟨.element (.word "r" []), some 1, [15]⟩,
        ⟨.element (.word "fldChar" [FieldMark.attribute .beginning]), some 14, []⟩,
        ⟨.element (.word "r" []), some 1, [17]⟩, ⟨.element (.word "instrText" []), some 16, [18]⟩,
        ⟨.text "MERGEFIELD x", some 17, []⟩, ⟨.element (.word "r" []), some 1, [20]⟩,
        ⟨.element (.word "fldChar" [FieldMark.attribute .separator]), some 19, []⟩,
        ⟨.element (.word "r" []), some 1, [22, 25]⟩, ⟨.element (.word "r" []), some 21, [23]⟩,
        ⟨.element (.word "t" []), some 22, [24]⟩, ⟨.text "y", some 23, []⟩,
        ⟨.element (.word "t" []), some 21, [26]⟩, ⟨.text "a%else%b", some 25, []⟩,
        ⟨.element (.word "r" []), some 1, [28]⟩,
        ⟨.element (.word "fldChar" [FieldMark.attribute .ending]), some 27, []⟩,
        ⟨.element (.word "r" []), some 1, [30]⟩, ⟨.element (.word "t" []), some 29, [31]⟩,
        ⟨.text "%end%", some 30, []⟩])).toArray⟩

lemma parse_nestedRunMarkup : parse nestedRunMarkup = .ok nestedRunPage :=
  parse_concat [_, _, _, _, _, _, _, _, _, _] (by decide +kernel)

lemma mergeFields_nestedRunPage : nestedRunPage.mergeFields = [⟨17, some "x"⟩] := by
  rfl

/-- A text element is substituted and the IF field is applied.  With the empty placeholder one side
of the marker is left, with the other one both are. -/
lemma processed_nestedRunPage :
    nestedRunPage.hasBareTexts = true ∧ nestedRunPage.substitutedElements {} = [23] ∧
      ((nestedRunPage.mergePass {}).document.ifPass ⟨.object [("a", .string "1")]⟩ {}).count = 1 ∧
      (((nestedRunPage.mergePass {}).document.ifPass ⟨.object [("a", .string "1")]⟩
          {}).document.veil [23]).toChars ≠
        (((nestedRunPage.mergePass { placeholder := "" }).document.ifPass
          ⟨.object [("a", .string "1")]⟩ { placeholder := "" }).document.veil [23]).toChars := by
  simp only [mergePass, substitutedElements, processMergeFields, mergeFields_nestedRunPage]
  decide +kernel

lemma textsApart_nestedRunPage : nestedRunPage.TextsApart := fun _ _ =>
  (BareTexts.of_hasBareTexts (wellFormed_of_parse parse_nestedRunMarkup)
    processed_nestedRunPage.1).not_in_instruction

end Document

/-- Two placeholders that are not empty leave the same trees, apart from the text in the element
that is substituted. -/
theorem processDocument_display_nested :
    let context : DataContext := ⟨.object [("a", .string "1")]⟩
    let options : Options := {}
    let options' : Options := { placeholder := "-", ifPlaceholder := "y" }
    let merged := (nestedRunPage.mergePass options).document
    let merged' := (nestedRunPage.mergePass options').document
    let pruned := (merged.ifPass context options).document
    let pruned' := (merged'.ifPass context options').document
    parse nestedRunMarkup = .ok nestedRunPage ∧ nestedRunPage.TextsApart ∧
      Marker.occursIn options.placeholder.toList = false ∧
      Marker.occursIn options'.placeholder.toList = false ∧
      options'.placeholder.isEmpty = options.placeholder.isEmpty ∧
      nestedRunPage.substitutedElements options = [23] ∧
      (merged.ifPass context options).count = 1 ∧
      (∃ diagnostics,
        processDocument nestedRunMarkup context options = .ok ⟨pruned.toMarkup, diagnostics⟩ ∧
        processDocument nestedRunMarkup context options' = .ok ⟨pruned'.toMarkup, diagnostics⟩) ∧
      ∃ trees, (pruned.veil [23]).Displays trees ∧ (pruned'.veil [23]).Displays trees := by
  intro context options options' merged merged' pruned pruned'
  obtain ⟨-, helements, hcount, -⟩ := processed_nestedRunPage
  have hunmarked : Marker.occursIn options.placeholder.toList = false := by decide
  have hunmarked' : Marker.occursIn options'.placeholder.toList = false := by decide
  have hempty : options'.placeholder.isEmpty = options.placeholder.isEmpty := by decide
  obtain ⟨hprocessed, -, -, -, -, -, htrees⟩ := processDocument_display parse_nestedRunMarkup
    textsApart_nestedRunPage context (show options' = { options with
      placeholder := options'.placeholder, ifPlaceholder := options'.ifPlaceholder } from rfl)
    hunmarked hunmarked' fun _ _ => .inl hempty
  rw [helements] at htrees
  exact ⟨parse_nestedRunMarkup, textsApart_nestedRunPage, hunmarked, hunmarked', hempty, helements,
    hcount, hprocessed, htrees⟩

/-- Two placeholders, one of them empty, leave different trees, apart from the text in the element
that is substituted, where a run is in a run with a marker. -/
theorem not_processDocument_display_nested :
    let context : DataContext := ⟨.object [("a", .string "1")]⟩
    let options : Options := {}
    let options' : Options := { placeholder := "" }
    let pruned := ((nestedRunPage.mergePass options).document.ifPass context options).document
    let pruned' := ((nestedRunPage.mergePass options').document.ifPass context options').document
    parse nestedRunMarkup = .ok nestedRunPage ∧ nestedRunPage.TextsApart ∧
      options' = { options with
        placeholder := options'.placeholder, ifPlaceholder := options'.ifPlaceholder } ∧
      Marker.occursIn options.placeholder.toList = false ∧
      Marker.occursIn options'.placeholder.toList = false ∧
      (∃ diagnostics diagnostics',
        processDocument nestedRunMarkup context options = .ok ⟨pruned.toMarkup, diagnostics⟩ ∧
        processDocument nestedRunMarkup context options' = .ok ⟨pruned'.toMarkup, diagnostics'⟩) ∧
      nestedRunPage.substitutedElements options = [23] ∧
      ¬ ∃ trees, (pruned.veil [23]).Displays trees ∧ (pruned'.veil [23]).Displays trees := by
  intro context options options' pruned pruned'
  obtain ⟨-, helements, -, hdifferent⟩ := processed_nestedRunPage
  refine ⟨parse_nestedRunMarkup, textsApart_nestedRunPage, rfl, by decide, by decide,
    ⟨_, _, processDocument_eq parse_nestedRunMarkup context options,
      processDocument_eq parse_nestedRunMarkup context options'⟩, helements, ?_⟩
  rintro ⟨trees, hdisplays, hdisplays'⟩
  exact hdifferent (String.ofList_injective (hdisplays'.toMarkup_eq hdisplays))

end WordFields
