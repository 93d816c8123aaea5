import WordFields.Proofs.Field.Extraction

/-!
# The runs of an IF field

A field that was read spans a contiguous part of the document's runs, from the run with its first
mark up to the run with its closing marker.  Each of these runs has exactly one role in the field:
it belongs to the field itself, to an entry of a branch, or it holds markers.  So taking a branch
out of a document neither leaves one of its runs behind nor touches a run of something else.

`ContentStep.runs_perm` says which runs one step of the content takes, `ContentRun.runs_perm` which
runs all steps take, and `readIf_partition` has the whole statement.
-/

namespace WordFields

open scoped List

lemma entriesRuns_append (entries entries' : List BranchEntry) :
    entriesRuns (entries ++ entries') = entriesRuns entries ++ entriesRuns entries' := by
  induction entries with
  | nil => simp [entriesRuns]
  | cons entry entries ih => simp [entriesRuns, ih]

namespace IfContent

/-- The runs of the content that has been read so far. -/
def runs (content : IfContent) : List NodeId :=
  (entriesRuns content.ifTrue ++ entriesRuns content.ifFalse) ++
    content.markerRuns.map MarkerRun.run

/-- The entries of both branches. -/
def entries (content : IfContent) : List BranchEntry :=
  content.ifTrue ++ content.ifFalse

lemma mem_entries_add {content : IfContent} {entry new : BranchEntry} :
    entry ∈ (content.add new).entries ↔ entry ∈ content.entries ∨ entry = new := by
  unfold add entries
  split <;> simp only [List.mem_append, List.mem_singleton] <;> tauto

lemma runs_add (content : IfContent) (entry : BranchEntry) :
    (content.add entry).runs.Perm (content.runs ++ entry.runs) := by
  have hentry : entriesRuns [entry] = entry.runs := by simp [entriesRuns]
  unfold add runs
  split
  · simp only [entriesRuns_append, hentry, List.append_assoc]
    refine List.Perm.append_left _ ?_
    exact List.perm_append_comm.trans (by simp only [List.append_assoc]; rfl)
  · simp only [entriesRuns_append, hentry, List.append_assoc]
    refine List.Perm.append_left _ (List.Perm.append_left _ ?_)
    exact List.perm_append_comm

/-! ## Runs without markers -/

lemma runs_addRun (content : IfContent) (options : Options) (run : NodeId) (text : String) :
    (content.addRun options run text).runs.Perm (content.runs ++ [run]) := by
  unfold addRun
  split
  · exact content.runs_add (.run run)
  · exact content.runs_add (.text run text)

lemma mem_entries_addRun {content : IfContent} {options : Options} {run : NodeId} {text : String}
    {field : IfSpan} (h : .nested field ∈ (content.addRun options run text).entries) :
    .nested field ∈ content.entries := by
  unfold addRun at h
  split at h <;> simpa [mem_entries_add] using h

/-! ## Runs with markers -/

lemma runs_addFragment (content : IfContent) (options : Options) (text : List Char) :
    (content.addFragment options text).runs.Perm content.runs := by
  unfold addFragment
  split
  · exact .refl _
  · simpa [BranchEntry.runs] using content.runs_add (.fragment (String.ofList text))

lemma mem_entries_addFragment {content : IfContent} {options : Options} {text : List Char}
    {field : IfSpan} (h : .nested field ∈ (content.addFragment options text).entries) :
    .nested field ∈ content.entries := by
  unfold addFragment at h
  split at h
  · exact h
  · simpa [mem_entries_add] using h

/-- A marker changes which branch is read, and no entry. -/
lemma addMarker?_keeps {content after : IfContent} {options : Options} {marker : Marker}
    (h : content.addMarker? options marker = some after) :
    after.runs = content.runs ∧ after.entries = content.entries := by
  unfold addMarker? at h
  split at h
  · cases h
    exact ⟨rfl, rfl⟩
  · split at h
    · cases h
      exact ⟨rfl, rfl⟩
    · split at h
      · cases h
      · cases h
        exact ⟨rfl, rfl⟩
    · cases h
      exact ⟨rfl, rfl⟩

/-- The pieces of a run with markers add no run and no field to the branches. -/
lemma addPieces?_keeps {options : Options} {content after : IfContent} {pieces : List Piece}
    {sides : List Side} (h : addPieces? options content pieces = some (sides, after)) :
    after.runs.Perm content.runs ∧
      ∀ field, .nested field ∈ after.entries → .nested field ∈ content.entries := by
  induction pieces generalizing content sides with
  | nil =>
    simp only [addPieces?, Option.some.injEq, Prod.mk.injEq] at h
    obtain ⟨-, rfl⟩ := h
    exact ⟨.refl _, fun _ hfield => hfield⟩
  | cons piece pieces ih =>
    cases piece with
    | text text =>
      simp only [addPieces?, Option.map_eq_some_iff, Prod.mk.injEq, Prod.exists] at h
      obtain ⟨sides', after', hpieces, -, rfl⟩ := h
      obtain ⟨hruns, hentries⟩ := ih hpieces
      exact ⟨hruns.trans (content.runs_addFragment options text),
        fun field hfield => mem_entries_addFragment (hentries field hfield)⟩
    | marker marker =>
      simp only [addPieces?] at h
      split at h
      next content' hmarker =>
        obtain ⟨hruns, hentries⟩ := addMarker?_keeps hmarker
        rw [← hruns, ← hentries]
        exact ih h
      next => cases h

lemma addMarkerRun?_keeps {content after : IfContent} {options : Options} {run : NodeId}
    {texts : List String} (h : content.addMarkerRun? options run texts = some after) :
    after.runs.Perm (content.runs ++ [run]) ∧
      ∀ field, .nested field ∈ after.entries → .nested field ∈ content.entries := by
  simp only [addMarkerRun?, Option.map_eq_some_iff, Prod.exists] at h
  obtain ⟨sides, read, hpieces, rfl⟩ := h
  obtain ⟨hruns, hentries⟩ := addPieces?_keeps hpieces
  refine ⟨?_, hentries⟩
  have hmarkers : (IfContent.runs { read with markerRuns := read.markerRuns ++ [⟨run, sides⟩] }) =
      read.runs ++ [run] := by
    simp [IfContent.runs]
  rw [hmarkers]
  exact hruns.append_right [run]

lemma markerRuns_add (content : IfContent) (entry : BranchEntry) :
    (content.add entry).markerRuns = content.markerRuns := by
  unfold add
  split <;> rfl

lemma markerRuns_addRun (content : IfContent) (options : Options) (run : NodeId)
    (text : String) : (content.addRun options run text).markerRuns = content.markerRuns := by
  unfold addRun
  split <;> exact content.markerRuns_add _

lemma markerRuns_addFragment (content : IfContent) (options : Options)
    (text : List Char) : (content.addFragment options text).markerRuns = content.markerRuns := by
  unfold addFragment
  split
  · rfl
  · exact content.markerRuns_add _

lemma markerRuns_addMarker? {content after : IfContent} {options : Options} {marker : Marker}
    (h : content.addMarker? options marker = some after) :
    after.markerRuns = content.markerRuns := by
  unfold addMarker? at h
  grind

lemma markerRuns_addPieces? {content after : IfContent} {options : Options} {pieces : List Piece}
    {sides : List Side} (h : addPieces? options content pieces = some (sides, after)) :
    after.markerRuns = content.markerRuns := by
  induction pieces generalizing content sides with
  | nil =>
    cases h
    rfl
  | cons piece pieces ih =>
    cases piece with
    | text text =>
      obtain ⟨⟨sides', read⟩, hread, heq⟩ := Option.map_eq_some_iff.1 h
      cases heq
      rw [ih hread, markerRuns_addFragment]
    | marker marker =>
      rw [addPieces?] at h
      split at h
      next read hmarker => rw [ih h, markerRuns_addMarker? hmarker]
      next => cases h

lemma markerRuns_addMarkerRun? {content after : IfContent} {options : Options} {run : NodeId}
    {texts : List String} (h : content.addMarkerRun? options run texts = some after) :
    ∃ sides, after.markerRuns = content.markerRuns ++ [⟨run, sides⟩] := by
  obtain ⟨⟨sides, read⟩, hread, rfl⟩ := Option.map_eq_some_iff.1 h
  exact ⟨sides, by rw [← markerRuns_addPieces? hread]⟩

end IfContent

namespace Document

variable {d : Document} {options : Options} {runs : List NodeId}

/-! ## Steps and runs of the content -/

section

variable {nested : Nat → Except IfProblem IfSpan}

/-- A step takes the runs between its indexes, each of them once. -/
lemma ContentStep.runs_perm {index index' : Nat} {content content' : IfContent}
    (hnested : ∀ field, nested index = .ok field →
      field.runs.Perm (segment runs index field.next))
    (h : ContentStep d options runs nested index content index' content') :
    content'.runs.Perm (content.runs ++ segment runs index index') := by
  cases h with
  | nested _ _ _ reads =>
    exact (content.runs_add _).trans (.append_left _ (hnested _ reads))
  | markers _ atRun _ _ reads =>
    rw [segment_succ atRun]
    exact (IfContent.addMarkerRun?_keeps reads).1
  | plain _ atRun _ _ =>
    rw [segment_succ atRun]
    exact content.runs_addRun options _ _

lemma ContentStep.nested_mem {index index' : Nat} {content content' : IfContent} {field : IfSpan}
    (h : ContentStep d options runs nested index content index' content')
    (hfield : .nested field ∈ content'.entries) :
    .nested field ∈ content.entries ∨ nested index = .ok field ∧ index' = field.next := by
  cases h with
  | nested _ _ _ reads =>
    rcases IfContent.mem_entries_add.1 hfield with hold | hnew
    · exact .inl hold
    · cases hnew
      exact .inr ⟨reads, rfl⟩
  | markers _ _ _ _ reads => exact .inl ((IfContent.addMarkerRun?_keeps reads).2 field hfield)
  | plain _ _ _ _ => exact .inl (IfContent.mem_entries_addRun hfield)

lemma ContentRun.runs_perm {index next : Nat} {content after : IfContent}
    (hprogress : ∀ index field, nested index = .ok field → index < field.next)
    (hnested : ∀ later field, index ≤ later → nested later = .ok field →
      field.runs.Perm (segment runs later field.next))
    (h : ContentRun d options runs nested index content next after) :
    after.runs.Perm (content.runs ++ segment runs index next) := by
  induction h with
  | closed _ => simp
  | @step index index' next content content' after first rest ih =>
    have hlt : index < index' := (first.progress hprogress).2
    have hle : index' ≤ next := rest.le hprogress
    calc after.runs
      _ ~ content'.runs ++ segment runs index' next :=
        ih fun later field hlater => hnested later field (by omega)
      _ ~ (content.runs ++ segment runs index index') ++ segment runs index' next :=
        (first.runs_perm fun field => hnested index field (Nat.le_refl _)).append_right _
      _ = content.runs ++ segment runs index next := by
        rw [List.append_assoc, segment_append runs (Nat.le_of_lt hlt) hle]

/-- A run of steps does not leave the document. -/
lemma ContentRun.next_le_length {index next : Nat} {content after : IfContent}
    (hnested : ∀ later field, index ≤ later → nested later = .ok field →
      later < field.next ∧ field.next ≤ runs.length)
    (hindex : index ≤ runs.length)
    (h : ContentRun d options runs nested index content next after) : next ≤ runs.length := by
  induction h with
  | closed _ => exact hindex
  | @step index index' next content content' after first rest ih =>
    have hstep : index < index' ∧ index' ≤ runs.length := by
      cases first with
      | nested _ _ _ reads => exact hnested _ _ (Nat.le_refl _) reads
      | markers _ atRun _ _ _ =>
        exact ⟨Nat.lt_succ_self _, (List.getElem?_eq_some_iff.1 atRun).1⟩
      | plain _ atRun _ _ =>
        exact ⟨Nat.lt_succ_self _, (List.getElem?_eq_some_iff.1 atRun).1⟩
    exact ih (fun later field hlater => hnested later field (by omega)) hstep.2

/-- A field among the entries was there before, or it was read at an index on the way. -/
lemma ContentRun.nested_mem {index next : Nat} {content after : IfContent} {field : IfSpan}
    (hprogress : ∀ index field, nested index = .ok field → index < field.next)
    (h : ContentRun d options runs nested index content next after)
    (hfield : .nested field ∈ after.entries) :
    .nested field ∈ content.entries ∨
      ∃ later, index ≤ later ∧ nested later = .ok field ∧ field.next ≤ next := by
  induction h with
  | closed _ => exact .inl hfield
  | @step index index' next content content' after first rest ih =>
    have hlt : index < index' := (first.progress hprogress).2
    rcases ih hfield with hold | ⟨later, hlater, reads, hnext⟩
    · rcases first.nested_mem hold with hold | ⟨reads, rfl⟩
      · exact .inl hold
      · exact .inr ⟨index, Nat.le_refl _, reads, rest.le hprogress⟩
    · exact .inr ⟨later, by omega, reads, hnext⟩

end

/-! ## Fields -/

lemma readIf_first {index : Nat} {field : IfSpan} (h : d.readIf options runs index = .ok field) :
    field.first = index := by
  obtain ⟨header, content, next, -, -, rfl⟩ := readIf_eq_ok_iff.1 h
  rfl

lemma readIf_next_le_length {index : Nat} {field : IfSpan}
    (h : d.readIf options runs index = .ok field) : field.next ≤ runs.length := by
  obtain ⟨header, content, next, hheader, hrun, rfl⟩ := readIf_eq_ok_iff.1 h
  have hbounds := readHeader_bounds hheader
  refine hrun.next_le_length (fun later inner hlater reads => ?_) hbounds.2
  exact ⟨readIf_progress reads, readIf_next_le_length reads⟩
termination_by runs.length - index
decreasing_by omega

lemma readIf_runs_perm {index : Nat} {field : IfSpan}
    (h : d.readIf options runs index = .ok field) :
    field.runs.Perm (segment runs index field.next) := by
  obtain ⟨header, content, next, hheader, hrun, rfl⟩ := readIf_eq_ok_iff.1 h
  have hbounds := readHeader_bounds hheader
  have hle : header.codeEnd + 1 ≤ next := hrun.le fun _ _ => readIf_progress
  have hcontent := hrun.runs_perm (fun _ _ => readIf_progress)
    fun later inner hlater reads => readIf_runs_perm reads
  have hempty : ({} : IfContent).runs = [] := rfl
  rw [hempty, List.nil_append] at hcontent
  calc (spanOf runs index header content next).runs
    _ = segment runs index (header.codeEnd + 1) ++ content.runs := by
      simp [spanOf, IfSpan.runs, IfContent.runs]
    _ ~ segment runs index (header.codeEnd + 1) ++ segment runs (header.codeEnd + 1) next :=
      hcontent.append_left _
    _ = segment runs index next := segment_append runs (by omega) hle
termination_by runs.length - index
decreasing_by omega

/-- The partition of the runs of a field: those from its first mark up to its closing marker, its
own ones in front, and each exactly once.  Fields inside it are read in the same way, and no bound
on the recursion that covers the remaining runs is ever reached. -/
theorem readIf_partition {index : Nat} {field : IfSpan}
    (h : d.readIf options runs index = .ok field) :
    field.first = index ∧ index < field.next ∧ field.next ≤ runs.length ∧
      field.runs ~ segment runs index field.next ∧
      (∃ codeEnd, index + 2 ≤ codeEnd ∧ codeEnd < field.next ∧
        field.codeRuns = segment runs index (codeEnd + 1)) ∧
      (∀ inner, .nested inner ∈ field.ifTrue ++ field.ifFalse →
        index < inner.first ∧ inner.next ≤ field.next ∧
          d.readIf options runs inner.first = .ok inner) ∧
      ∀ depth, runs.length < depth + index →
        d.readIfWithin options runs depth index = .ok field := by
  have hlt : index < field.next := readIf_progress h
  have hle : field.next ≤ runs.length := readIf_next_le_length h
  refine ⟨readIf_first h, hlt, hle, readIf_runs_perm h, ?_, ?_, ?_⟩
  · obtain ⟨header, content, next, hheader, hrun, rfl⟩ := readIf_eq_ok_iff.1 h
    have hbounds := readHeader_bounds hheader
    have hcontent : header.codeEnd + 1 ≤ next := hrun.le fun _ _ => readIf_progress
    exact ⟨header.codeEnd, hbounds.1, hcontent, rfl⟩
  · intro inner hinner
    obtain ⟨header, content, next, hheader, hrun, rfl⟩ := readIf_eq_ok_iff.1 h
    have hbounds := readHeader_bounds hheader
    rcases hrun.nested_mem (fun _ _ => readIf_progress) hinner with hnone | hread
    · cases hnone
    · obtain ⟨later, hlater, reads, hnext⟩ := hread
      rw [readIf_first reads]
      exact ⟨by omega, hnext, reads⟩
  · intro depth hdepth
    rw [readIfWithin_eq_readIf hdepth (by omega)]
    exact h

/-- A field that has another one in its true branch, on a page of its own. -/
theorem readIf_partition_page :
    let template : Template :=
      .field ⟨"a", "=", "1"⟩ (.text "x" (.field ⟨"b", "<", "2"⟩ (.text "y" .nil) .nil .nil))
        (.text "z" .nil) .nil
    let d := ofForest [Tree.page [template.cells]]
    ∃ field, d.readIf {} d.runs 0 = .ok field ∧ field.runs ~ d.runs := by
  intro template d
  have hplain : template.Over PlainText := by decide
  obtain ⟨hcondition, htrueOver, hfalseOver, -⟩ := hplain.imp fun _ => PlainText.contentText
  obtain ⟨rows, placed, hsheet, htemplate, hstands, hrow, -⟩ :=
    (displays_ofForest [Tree.page [template.cells]]).exists_placed List.flatten_singleton
  have hfield : placed.template = .field ⟨"a", "=", "1"⟩ _ (.text "z" .nil) .nil := htemplate
  have hruns : d.runs = placed.runs := by rw [hsheet.runs_eq, hrow, Placed.runs]
  have hnodup : d.runs.Nodup := hsheet.wellFormed.nodup_runs
  cases placed with
  | nil => cases hfield
  | text run content rest => cases hfield
  | field condition code ifTrue elseRun ifFalse endRun rest =>
    simp only [Placed.template, Template.field.injEq] at hfield
    obtain ⟨rfl, htrue, hfalse, hrest⟩ := hfield
    obtain ⟨hcode, hstandsTrue, helse, hstandsFalse, hend, -⟩ := hstands
    have hdrop : d.runs.drop 0 = code.runs ++ (ifTrue.runs ++ elseRun ::
        (ifFalse.runs ++ endRun :: rest.runs)) := by
      rw [List.drop_zero, hruns, Placed.runs_field]
    have hreads : d.readIf {} d.runs 0 =
        .ok (Placed.span 0 _ code ifTrue elseRun ifFalse endRun) :=
      Placed.readIf_field hsheet hnodup hcondition hcode helse hend
        (Placed.reads hsheet rfl hnodup (htrue ▸ htrueOver) hstandsTrue)
        (Placed.reads hsheet rfl hnodup (hfalse ▸ hfalseOver) hstandsFalse) hdrop
    obtain ⟨-, -, -, hperm, -⟩ := readIf_partition hreads
    have hempty : rest.runs = [] := by
      cases rest with
      | nil => rfl
      | text run content rest => cases hrest
      | field condition code ifTrue elseRun ifFalse endRun rest => cases hrest
    have hnext := @Placed.drop_next _ 0 ⟨"a", "=", "1"⟩ _ _ _ _ _ _ hdrop
    rw [hempty, List.drop_eq_nil_iff] at hnext
    refine ⟨_, hreads, ?_⟩
    rw [segment, List.drop_zero, Nat.sub_zero, List.take_of_length_le hnext] at hperm
    exact hperm

end Document

end WordFields
