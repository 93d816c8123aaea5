import WordFields.Proofs.Field.Substitution

/-!
# The account of a pass over merge fields

The pass goes through the merge fields against the document as it changes.  Whatever the fields are,
complete or not, and whether or not they share their text elements, each of them is substituted,
found to be done already or reported, and the document after the pass differs from the one before
only by the substitutions (`processMergeFields_frame`).
-/

namespace WordFields

namespace Document

variable {d : Document}

/-- The element that shows a result is a text element in the tree of another element. -/
lemma resultText?_some (hd : d.WellFormed) {triad : FieldTriad} {id : NodeId}
    (h : d.resultText? triad = some id) :
    d.isWord id "t" = true ∧ ∃ top, d.parent id = some top := by
  unfold resultText? at h
  split at h
  next container _ =>
    obtain ⟨n, -, hfirst⟩ := List.exists_of_findSome?_eq_some h
    rw [firstWordDescendant?_eq_head?] at hfirst
    obtain ⟨hbelow, hword⟩ := List.mem_filter.1 (List.mem_of_mem_head? hfirst)
    obtain ⟨top, htop, -⟩ := Relation.TransGen.head'_iff.1 (hd.mem_descendants.1 hbelow)
    exact ⟨hword, top, htop⟩
  next => cases h

lemma mergeAction_substitute (hd : d.WellFormed) {field : MergeField} {id : NodeId} {path : String}
    (h : d.mergeAction field = .substitute id path) :
    d.isWord id "t" = true ∧ ∃ top, d.parent id = some top := by
  unfold mergeAction at h
  split at h
  · cases h
  · split at h
    · cases h
    · split at h
      · cases h
      next hresult =>
        split at h
        · cases h
        · cases h
          exact resultText?_some hd hresult

/-- One action of the pass. -/
lemma substituted_apply (hd : d.WellFormed) (options : Options) (field : MergeField) :
    Substituted d ((d.mergeAction field).apply d options) options
      (d.mergeAction field).target?.toList := by
  cases haction : d.mergeAction field with
  | report diagnostic => exact .refl hd options
  | keep => exact .refl hd options
  | substitute id path =>
    obtain ⟨hword, top, hparent⟩ := mergeAction_substitute hd haction
    exact substituted_substitute hd options hword hparent path

/-- What the pass does for some merge fields, in terms of its substitutions. -/
theorem substituted_mergeTargets (hd : d.WellFormed) (options : Options)
    (fields : List MergeField) :
    Substituted d (d.substituteAll options (mergeTargets options d fields)) options
      (mergeTargets options d fields) := by
  induction fields generalizing d with
  | nil => exact .refl hd options
  | cons field fields ih =>
    have hfirst := substituted_apply hd options field
    have hrest := ih hfirst.wellFormed
    have hfold : d.substituteAll options (mergeTargets options d (field :: fields)) =
        ((d.mergeAction field).apply d options).substituteAll options
          (mergeTargets options ((d.mergeAction field).apply d options) fields) := by
      rw [mergeTargets_cons, substituteAll, List.foldl_append]
      cases d.mergeAction field <;> rfl
    rw [hfold, mergeTargets_cons]
    exact hfirst.trans hrest

/-- The frame and the account of a pass over merge fields.  Nodes keep their kinds, but an element
that is substituted records the path of its last substitution and is the same otherwise.  Lists of
children are the same up to new comments, each of them beside an element that is substituted for
its path; below such an element there is the placeholder and nothing else.  The merge fields are
those that are counted, those whose element records their path already, and those that are reported;
the document comes about by the substitutions alone, so no report goes with a change. -/
theorem processMergeFields_frame (hd : d.WellFormed) (options : Options) :
    let result := d.processMergeFields options
    let after := result.document
    let targets := mergeTargets options d d.mergeFields
    let elements := targets.map Prod.fst
    (∀ x, x < d.size → x ∉ elements → after.kind x = d.kind x) ∧
      (∀ x ∈ elements, d.isWord x "t" = true ∧ ∃ e e' path before rest,
        targets = before ++ (x, path) :: rest ∧ x ∉ rest.map Prod.fst ∧
          d.kind x = .element e ∧ after.kind x = .element e' ∧
          e'.name = e.name ∧ e'.namespaceName = e.namespaceName ∧
          e'.attributes.filter (·.name ≠ Element.mergeName) =
            e.attributes.filter (·.name ≠ Element.mergeName) ∧
          e'.attribute? mergeAttribute = some path) ∧
      (∀ x, x ∉ elements → (after.children x).filter (· < d.size) = d.children x ∧
        ∀ child ∈ after.children x, d.size ≤ child → options.mergeComments = true ∧
          ∃ target ∈ targets, target.1 ∈ d.children x ∧
            after.kind child = .comment (mergeComment target.2)) ∧
      (∀ x ∈ elements, if options.placeholder.isEmpty then after.children x = []
        else ∃ text, after.children x = [text] ∧ d.size ≤ text ∧
          after.kind text = .text options.placeholder) ∧
      after = d.substituteAll options targets ∧
      result.count = targets.length ∧
      d.mergeFields.length = result.count +
        (mergeActions options d d.mergeFields).countP MergeAction.isKeep +
        result.diagnostics.length := by
  intro result after targets elements
  obtain ⟨hdocument, hcount, hdiagnostics⟩ :=
    foldl_mergeStep options d.runs d.mergeFields ⟨d, 0, []⟩
  rw [Nat.zero_add] at hcount
  rw [List.length_nil, Nat.zero_add] at hdiagnostics
  have hafter : after = d.substituteAll options targets := hdocument
  have hframe : Substituted d after options targets :=
    hafter ▸ substituted_mergeTargets hd options d.mergeFields
  refine ⟨hframe.kind_eq, fun x hx => ⟨hframe.isWord x hx, ?_⟩,
    fun x hx => ⟨hframe.children_eq x hx, hframe.children_new x hx⟩, hframe.children_target,
    hafter, hcount, ?_⟩
  · obtain ⟨e, path, before, rest, hsplit, hlast, hold, hnew⟩ := hframe.kind_target x hx
    exact ⟨e, _, path, before, rest, hsplit, hlast, hold, hnew, Element.name_setAttribute ..,
      Element.namespaceName_setAttribute .., Element.filter_setAttribute e path,
      Element.attribute?_setAttribute e path⟩
  · show d.mergeFields.length = (d.processMergeFields options).count + _ +
      (d.processMergeFields options).diagnostics.length
    have hlength := MergeAction.length_eq (mergeActions options d d.mergeFields)
    rw [length_mergeActions] at hlength
    rw [processMergeFields, hcount, hdiagnostics]
    exact hlength

/-! ## A page with merge fields -/

/-- Two paragraphs, one with a merge field and one with a merge field that has no result. -/
def mergePage : Document :=
  ofForest [.word "document" []
    [.word "p" [] (([.mark .beginning, .instruction "MERGEFIELD a.b", .mark .separator, .text "x",
      .mark .ending] : List RunContent).map RunContent.tree),
     .word "p" [] (([.mark .beginning, .instruction "MERGEFIELD c"] : List RunContent).map
      RunContent.tree)]]

lemma mergeFields_mergePage :
    mergePage.mergeFields = [⟨6, some "a.b"⟩, ⟨19, some "c"⟩] := by
  rfl

lemma mergeTargets_mergePage :
    mergeTargets {} mergePage mergePage.mergeFields = [(11, "a.b")] := by
  rw [mergeFields_mergePage]
  decide +kernel

lemma countP_isKeep_mergePage :
    (mergeActions {} mergePage mergePage.mergeFields).countP MergeAction.isKeep = 0 := by
  rw [mergeFields_mergePage]
  decide +kernel

/-- Of two merge fields one is substituted and the other is reported. -/
theorem processMergeFields_frame_page :
    mergePage.WellFormed ∧ mergeTargets {} mergePage mergePage.mergeFields = [(11, "a.b")] ∧
      (mergePage.processMergeFields {}).count = 1 ∧
      (mergePage.processMergeFields {}).diagnostics.length = 1 ∧
      (∃ text, (mergePage.processMergeFields {}).document.children 11 = [text] ∧
        (mergePage.processMergeFields {}).document.kind text = .text "..........") ∧
      (mergePage.processMergeFields {}).document.kind 19 = mergePage.kind 19 := by
  have hwell : mergePage.WellFormed := (displays_ofForest _).wellFormed
  obtain ⟨hkind, -, -, hchildren, -, hcount, haccount⟩ := processMergeFields_frame hwell {}
  rw [mergeTargets_mergePage] at hkind hchildren hcount
  rw [countP_isKeep_mergePage, mergeFields_mergePage, hcount] at haccount
  obtain ⟨text, htext, -, hplaceholder⟩ := hchildren 11 (by decide)
  have hsize : 19 < mergePage.size := by decide +kernel
  refine ⟨hwell, mergeTargets_mergePage, hcount, ?_, ⟨text, htext, hplaceholder⟩,
    hkind 19 hsize (by decide)⟩
  simp only [List.length_cons, List.length_nil] at haccount
  omega

end Document

end WordFields
