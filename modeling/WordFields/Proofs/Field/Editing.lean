import WordFields.Proofs.Field.Frame

/-!
# A pass as a sequence of edits

Applying an IF field is a recursion over the field, but what it does to a document is a plain
sequence of edits: runs are taken out, and runs with markers are cleaned.  `IfSpan.edits` computes
the sequence of a field from the conditions, and `applyIf_eq_edits` says that applying the field is
carrying it out.  `Document.ifEdits` is the sequence of a whole pass.

Every edit is at one run, and no two edits of a pass are at the same run (`nodup_ifEdits`): the runs
of a field are apart from each other, and so are the fields.  A statement about one marker run can
thus be proved by splitting the sequence at the edit that cleans it.
-/

namespace WordFields

open Document

/-- A single edit of a pass over IF fields. -/
inductive FieldEdit where
  | remove (run : NodeId)
  /-- Deletes the markers of a run and the text that is not of the given side. -/
  | clean (keep : Side) (marker : MarkerRun)

namespace FieldEdit

/-- The run that an edit is at. -/
def run : FieldEdit → NodeId
  | .remove run => run
  | .clean _ marker => marker.run

/-- The runs that an edit takes out. -/
def removed : FieldEdit → List NodeId
  | .remove run => [run]
  | .clean _ _ => []

/-- The runs whose texts an edit changes. -/
def cleaned : FieldEdit → List NodeId
  | .remove _ => []
  | .clean _ marker => [marker.run]

def apply (d : Document) : FieldEdit → Document
  | .remove run => d.remove run
  | .clean keep marker => d.cleanMarkerRun keep marker

lemma run_eq_of_mem {edit : FieldEdit} {run : NodeId}
    (h : run ∈ edit.removed ∨ run ∈ edit.cleaned) : edit.run = run := by
  cases edit with
  | remove run' =>
    rcases h with h | h
    · exact (List.mem_singleton.1 h).symm
    · cases h
  | clean keep marker =>
    rcases h with h | h
    · cases h
    · exact (List.mem_singleton.1 h).symm

end FieldEdit

/-! ## The edits of a field -/

/-- The side of the texts that a field keeps in its runs with markers. -/
def IfSpan.side (context : DataContext) (field : IfSpan) : Side :=
  Side.ofBranch (field.condition.holds context)

mutual

/-- What applying a field does: the runs of the losing branch are taken out, the fields inside the
winning branch are applied, and the runs with markers are cleaned. -/
def IfSpan.edits (context : DataContext) : IfSpan → List FieldEdit
  | ⟨condition, _, _, ifTrue, ifFalse, markerRuns, _⟩ =>
    if condition.holds context then
      (entriesRuns ifFalse).map .remove ++
        (entriesEdits context ifTrue ++ markerRuns.map (.clean .ifTrue))
    else
      (entriesRuns ifTrue).map .remove ++
        (entriesEdits context ifFalse ++ markerRuns.map (.clean .ifFalse))

def entriesEdits (context : DataContext) : List BranchEntry → List FieldEdit
  | [] => []
  | entry :: rest => entry.edits context ++ entriesEdits context rest

def BranchEntry.edits (context : DataContext) : BranchEntry → List FieldEdit
  | .nested field => field.edits context
  | .text _ _ => []
  | .run _ => []
  | .fragment _ => []

end

lemma IfSpan.edits_eq (context : DataContext) (field : IfSpan) :
    field.edits context = (entriesRuns (field.losing context)).map .remove ++
      (entriesEdits context (field.winning context) ++
        field.markerRuns.map (.clean (field.side context))) := by
  obtain ⟨condition, first, codeRuns, ifTrue, ifFalse, markerRuns, next⟩ := field
  by_cases hholds : condition.holds context = true
  · simp [edits, losing, winning, side, Side.ofBranch, hholds]
  · simp [edits, losing, winning, side, Side.ofBranch, hholds]

mutual

/-- Applying a field is carrying out its edits. -/
theorem applyIf_eq_edits (context : DataContext) : (field : IfSpan) → (d : Document) →
    applyIf context d field = (field.edits context).foldl FieldEdit.apply d
  | ⟨condition, first, codeRuns, ifTrue, ifFalse, markerRuns, next⟩, d => by
    by_cases hholds : condition.holds context = true
    · rw [applyIf, IfSpan.edits, if_pos hholds, if_pos hholds, List.foldl_append,
        List.foldl_append, List.foldl_map, List.foldl_map, applyNested_eq_edits context ifTrue]
      rfl
    · rw [applyIf, IfSpan.edits, if_neg hholds, if_neg hholds, List.foldl_append,
        List.foldl_append, List.foldl_map, List.foldl_map, applyNested_eq_edits context ifFalse]
      rfl

theorem applyNested_eq_edits (context : DataContext) : (entries : List BranchEntry) →
    (d : Document) →
    applyNested context d entries = (entriesEdits context entries).foldl FieldEdit.apply d
  | [], _ => rfl
  | entry :: rest, d => by
    rw [applyNested, entriesEdits, List.foldl_append, applyEntry_eq_edits context entry,
      applyNested_eq_edits context rest]

theorem applyEntry_eq_edits (context : DataContext) : (entry : BranchEntry) → (d : Document) →
    applyEntry context d entry = (entry.edits context).foldl FieldEdit.apply d
  | .nested field, d => by
    rw [applyEntry, BranchEntry.edits]
    exact applyIf_eq_edits context field d
  | .text _ _, _ => rfl
  | .run _, _ => rfl
  | .fragment _, _ => rfl

end

/-! ## Which runs are edited -/

lemma count_map_remove (runs : List NodeId) (run : NodeId) :
    (((runs.map .remove : List FieldEdit)).map FieldEdit.run).count run = runs.count run := by
  rw [List.map_map]
  congr 1
  exact List.map_id _

lemma map_run_clean (keep : Side) (markers : List MarkerRun) :
    (markers.map (FieldEdit.clean keep)).map FieldEdit.run = markers.map MarkerRun.run := by
  rw [List.map_map]
  rfl

mutual

/-- The edits of a field are at the runs that leave the document and at the runs with markers, once
each. -/
theorem count_edits (context : DataContext) (run : NodeId) : (field : IfSpan) →
    ((field.edits context).map FieldEdit.run).count run =
      (losingRuns context (field.applied context)).count run +
        (markedRuns (field.applied context)).count run
  | ⟨condition, first, codeRuns, ifTrue, ifFalse, markerRuns, next⟩ => by
    have hbranch : ∀ branch, branch = ifTrue ∨ branch = ifFalse →
        ((entriesEdits context branch).map FieldEdit.run).count run =
          (losingRuns context (entriesApplied context branch)).count run +
            (markedRuns (entriesApplied context branch)).count run := by
      rintro branch (rfl | rfl)
      · exact count_entriesEdits context run _
      · exact count_entriesEdits context run _
    have hwinning := hbranch _ (IfSpan.winning_eq_or context
      ⟨condition, first, codeRuns, ifTrue, ifFalse, markerRuns, next⟩)
    simp only [IfSpan.edits_eq, IfSpan.applied_eq, losingRuns_cons, markedRuns_cons,
      List.map_append, List.count_append, count_map_remove, map_run_clean]
    omega

theorem count_entriesEdits (context : DataContext) (run : NodeId) : (entries : List BranchEntry) →
    ((entriesEdits context entries).map FieldEdit.run).count run =
      (losingRuns context (entriesApplied context entries)).count run +
        (markedRuns (entriesApplied context entries)).count run
  | [] => rfl
  | entry :: rest => by
    have hentry := count_entryEdits context run entry
    have hrest := count_entriesEdits context run rest
    simp only [entriesEdits, entriesApplied, losingRuns_append, markedRuns_append, List.map_append,
      List.count_append]
    omega

theorem count_entryEdits (context : DataContext) (run : NodeId) : (entry : BranchEntry) →
    ((entry.edits context).map FieldEdit.run).count run =
      (losingRuns context (entry.applied context)).count run +
        (markedRuns (entry.applied context)).count run
  | .nested field => by
    rw [BranchEntry.edits, BranchEntry.applied]
    exact count_edits context run field
  | .text _ _ => rfl
  | .run _ => rfl
  | .fragment _ => rfl

end

mutual

/-- Every run with markers of a field that is applied is cleaned for the branch that this field
keeps. -/
theorem clean_mem_edits (context : DataContext) {inner : IfSpan} {marker : MarkerRun}
    (hmarker : marker ∈ inner.markerRuns) : (field : IfSpan) → inner ∈ field.applied context →
    .clean (inner.side context) marker ∈ field.edits context
  | ⟨condition, first, codeRuns, ifTrue, ifFalse, markerRuns, next⟩, h => by
    have hbranch : ∀ branch, branch = ifTrue ∨ branch = ifFalse →
        inner ∈ entriesApplied context branch →
          .clean (inner.side context) marker ∈ entriesEdits context branch := by
      rintro branch (rfl | rfl)
      · exact clean_mem_entriesEdits context hmarker _
      · exact clean_mem_entriesEdits context hmarker _
    set field : IfSpan := ⟨condition, first, codeRuns, ifTrue, ifFalse, markerRuns, next⟩
    rw [IfSpan.edits_eq]
    rw [IfSpan.applied_eq] at h
    apply List.mem_append_right
    rcases List.mem_cons.1 h with rfl | hinner
    · exact List.mem_append_right _ (List.mem_map_of_mem hmarker)
    · exact List.mem_append_left _ (hbranch _ (field.winning_eq_or context) hinner)

theorem clean_mem_entriesEdits (context : DataContext) {inner : IfSpan} {marker : MarkerRun}
    (hmarker : marker ∈ inner.markerRuns) : (entries : List BranchEntry) →
    inner ∈ entriesApplied context entries →
    .clean (inner.side context) marker ∈ entriesEdits context entries
  | [], h => by cases h
  | entry :: rest, h => by
    rw [entriesEdits]
    rcases List.mem_append.1 h with hentry | hrest
    · exact List.mem_append_left _ (clean_mem_entryEdits context hmarker entry hentry)
    · exact List.mem_append_right _ (clean_mem_entriesEdits context hmarker rest hrest)

theorem clean_mem_entryEdits (context : DataContext) {inner : IfSpan} {marker : MarkerRun}
    (hmarker : marker ∈ inner.markerRuns) : (entry : BranchEntry) → inner ∈ entry.applied context →
    .clean (inner.side context) marker ∈ entry.edits context
  | .nested field, h => by
    rw [BranchEntry.edits]
    exact clean_mem_edits context hmarker field h
  | .text _ _, h => by cases h
  | .run _, h => by cases h
  | .fragment _, h => by cases h

end

lemma count_edits_le (context : DataContext) (run : NodeId) (field : IfSpan) :
    ((field.edits context).map FieldEdit.run).count run ≤ field.runs.count run := by
  have hcount := count_applied context run field
  rw [count_edits]
  omega

namespace Document

/-! ## What edits change -/

lemma pruned_edit {d : Document} (hd : d.WellFormed) (edit : FieldEdit) :
    d.Pruned (edit.apply d) edit.removed (d.InTextOf edit.cleaned) := by
  cases edit with
  | remove run => exact pruned_removeAll hd [run] _
  | clean keep marker => exact pruned_cleanMarkerRun d keep marker

lemma pruned_edits {d : Document} (hd : d.WellFormed) (edits : List FieldEdit) :
    d.Pruned (edits.foldl FieldEdit.apply d) (edits.flatMap FieldEdit.removed)
      (d.InTextOf (edits.flatMap FieldEdit.cleaned)) := by
  induction edits generalizing d with
  | nil => exact .refl d
  | cons edit edits ih =>
    have hfirst := pruned_edit hd edit
    have hrest := ih (hfirst.wellFormed hd)
    rw [List.flatMap_cons, List.flatMap_cons, List.foldl_cons]
    refine (hfirst.mono fun x hx => hx.mono (List.subset_append_left _ _)).trans
      (hrest.mono fun x hx => ?_)
    exact (hfirst.inTextOf hd hx).mono (List.subset_append_right _ _)

/-! ## The edits of a pass -/

/-- All edits of a pass, in order. -/
def ifEdits (d : Document) (context : DataContext) (options : Options) : List FieldEdit :=
  (d.ifSpans options).1.flatMap (IfSpan.edits context)

/-- Applying fields one after the other is carrying out their edits. -/
lemma foldl_applyIf (context : DataContext) (fields : List IfSpan) (d : Document) :
    fields.foldl (applyIf context) d =
      (fields.flatMap (IfSpan.edits context)).foldl FieldEdit.apply d := by
  induction fields generalizing d with
  | nil => rfl
  | cons field fields ih =>
    rw [List.foldl_cons, List.flatMap_cons, List.foldl_append, ih, applyIf_eq_edits]

lemma processIfFields_document (d : Document) (context : DataContext) (options : Options) :
    (d.processIfFields context options).document =
      (d.ifEdits context options).foldl FieldEdit.apply d :=
  foldl_applyIf context _ d

/-- The runs of the fields that a scan finds are among the runs that it reads, once each. -/
lemma Scan.runs_subperm {d : Document} {options : Options} {runs : List NodeId} {index : Nat}
    {reported : List Nat} {fields : List IfSpan} {problems : List IfProblem}
    (h : Scan d options runs index reported fields problems) :
    (fields.flatMap IfSpan.runs).Subperm (runs.drop index) := by
  have hlater : ∀ {found : List NodeId} {index : Nat}, found.Subperm (runs.drop (index + 1)) →
      found.Subperm (runs.drop index) := by
    intro found index hfound
    apply hfound.trans
    rw [← List.tail_drop]
    exact (List.tail_sublist _).subperm
  induction h with
  | finished => exact (List.nil_sublist _).subperm
  | @field index reported field fields problems opens reads rest ih =>
    have hlt : index < field.next := readIf_progress reads
    have hsplit : runs.drop index = segment runs index field.next ++ runs.drop field.next := by
      have hnext : index + (field.next - index) = field.next := by omega
      calc runs.drop index
        _ = (runs.drop index).take (field.next - index) ++
            (runs.drop index).drop (field.next - index) := (List.take_append_drop _ _).symm
        _ = segment runs index field.next ++ runs.drop field.next := by
          rw [List.drop_drop, hnext]
          rfl
    rw [List.flatMap_cons, hsplit]
    exact (readIf_runs_perm reads).subperm.append ih
  | known _ _ _ _ ih => exact hlater ih
  | fresh _ _ _ _ ih => exact hlater ih
  | other _ _ ih => exact hlater ih

lemma ifSpans_runs_subperm (d : Document) (options : Options) :
    ((d.ifSpans options).1.flatMap IfSpan.runs).Subperm d.runs := by
  obtain ⟨problems, -, hscan⟩ := @exists_scan d options d.runs (d.runs.length + 1) 0 [] (by omega)
  exact hscan.runs_subperm

lemma count_ifEdits_le (d : Document) (context : DataContext) (options : Options) (run : NodeId) :
    ((d.ifEdits context options).map FieldEdit.run).count run ≤ d.runs.count run := by
  have hfields : ∀ fields : List IfSpan,
      ((fields.flatMap (IfSpan.edits context)).map FieldEdit.run).count run ≤
        (fields.flatMap IfSpan.runs).count run := by
    intro fields
    induction fields with
    | nil => exact Nat.le_refl _
    | cons field fields ih =>
      have hfield := count_edits_le context run field
      simp only [List.flatMap_cons, List.map_append, List.count_append]
      omega
  exact (hfields _).trans ((d.ifSpans_runs_subperm options).count_le run)

lemma mem_runs_of_mem_ifEdits {d : Document} {context : DataContext} {options : Options}
    {edit : FieldEdit} (h : edit ∈ d.ifEdits context options) : edit.run ∈ d.runs := by
  have hcount := d.count_ifEdits_le context options edit.run
  have hpos := List.count_pos_iff.2 (List.mem_map_of_mem (f := FieldEdit.run) h)
  exact List.count_pos_iff.1 (Nat.lt_of_lt_of_le hpos hcount)

/-- No run is edited twice in a pass. -/
theorem WellFormed.nodup_ifEdits {d : Document} (hd : d.WellFormed) (context : DataContext)
    (options : Options) : ((d.ifEdits context options).map FieldEdit.run).Nodup := by
  rw [List.nodup_iff_count_le_one]
  intro run
  exact (d.count_ifEdits_le context options run).trans
    (List.nodup_iff_count_le_one.1 hd.nodup_runs run)

/-- The marker runs of the fields that are applied are cleaned in the pass. -/
lemma clean_mem_ifEdits {d : Document} {context : DataContext} {options : Options}
    {field inner : IfSpan} {marker : MarkerRun} (hfield : field ∈ (d.ifSpans options).1)
    (hinner : inner ∈ field.applied context) (hmarker : marker ∈ inner.markerRuns) :
    .clean (inner.side context) marker ∈ d.ifEdits context options :=
  List.mem_flatMap.2 ⟨field, hfield, clean_mem_edits context hmarker field hinner⟩

end Document

end WordFields
