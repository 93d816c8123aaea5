import WordFields.Field.Pruning
import WordFields.Proofs.Field.Extraction
import WordFields.Proofs.Field.Scanning

/-!
# What applying a field changes

Applying an IF field takes runs out of the tree and shortens texts, node by node and with fields
inside fields.  `Document.Pruned` says what such a change may do to a whole document: nodes are
detached and nothing else is moved, and only text nodes of some runs get another value.  Changes of
this kind compose, so the effect of a field is put together from the effects of single edits, by
recursion over the field.

Which runs are concerned is decided by the conditions alone.  `IfSpan.applied` lists the fields
that a field causes to be applied, itself and those that are reached through kept branches; the
runs that leave the document are those of their losing branches.  By the partition of the runs of a
field, none of them is a run of the code, or one with markers, of a field that is applied.
-/

namespace WordFields

/-! ## What a field decides -/

namespace IfSpan

/-- The branch that a field keeps. -/
def winning (context : DataContext) (field : IfSpan) : List BranchEntry :=
  if field.condition.holds context then field.ifTrue else field.ifFalse

/-- The branch that a field gives up. -/
def losing (context : DataContext) (field : IfSpan) : List BranchEntry :=
  if field.condition.holds context then field.ifFalse else field.ifTrue

end IfSpan

mutual

/-- The fields that are applied when a field is: the field, and those inside the branches that are
kept. -/
def IfSpan.applied (context : DataContext) : IfSpan → List IfSpan
  | ⟨condition, first, codeRuns, ifTrue, ifFalse, markerRuns, next⟩ =>
    ⟨condition, first, codeRuns, ifTrue, ifFalse, markerRuns, next⟩ ::
      if condition.holds context then entriesApplied context ifTrue
      else entriesApplied context ifFalse

def entriesApplied (context : DataContext) : List BranchEntry → List IfSpan
  | [] => []
  | entry :: rest => entry.applied context ++ entriesApplied context rest

def BranchEntry.applied (context : DataContext) : BranchEntry → List IfSpan
  | .nested field => field.applied context
  | .text _ _ => []
  | .run _ => []
  | .fragment _ => []

end

/-- The runs of the branches that some fields give up. -/
def losingRuns (context : DataContext) (fields : List IfSpan) : List NodeId :=
  fields.flatMap fun field => entriesRuns (field.losing context)

/-- The runs of some fields themselves. -/
def ownRuns (fields : List IfSpan) : List NodeId :=
  fields.flatMap IfSpan.codeRuns

/-- The runs that hold markers of some fields. -/
def markedRuns (fields : List IfSpan) : List NodeId :=
  fields.flatMap fun field => field.markerRuns.map MarkerRun.run

namespace IfSpan

/-- The runs that leave the document when a field is applied. -/
def removedRuns (context : DataContext) (field : IfSpan) : List NodeId :=
  losingRuns context (field.applied context)

lemma applied_eq (context : DataContext) (field : IfSpan) :
    field.applied context = field :: entriesApplied context (field.winning context) := by
  obtain ⟨condition, first, codeRuns, ifTrue, ifFalse, markerRuns, next⟩ := field
  rw [applied, winning]
  split <;> rfl

lemma winning_eq_or (context : DataContext) (field : IfSpan) :
    field.winning context = field.ifTrue ∨ field.winning context = field.ifFalse := by
  unfold winning
  split
  · exact .inl rfl
  · exact .inr rfl

lemma count_runs (context : DataContext) (field : IfSpan) (run : NodeId) :
    field.runs.count run =
      field.codeRuns.count run + (field.markerRuns.map MarkerRun.run).count run +
        (entriesRuns (field.winning context)).count run +
          (entriesRuns (field.losing context)).count run := by
  obtain ⟨condition, first, codeRuns, ifTrue, ifFalse, markerRuns, next⟩ := field
  simp only [runs, winning, losing, List.count_append]
  split <;> omega

end IfSpan

@[simp] lemma losingRuns_append (context : DataContext) (fields fields' : List IfSpan) :
    losingRuns context (fields ++ fields') =
      losingRuns context fields ++ losingRuns context fields' :=
  List.flatMap_append

@[simp] lemma ownRuns_append (fields fields' : List IfSpan) :
    ownRuns (fields ++ fields') = ownRuns fields ++ ownRuns fields' :=
  List.flatMap_append

@[simp] lemma markedRuns_append (fields fields' : List IfSpan) :
    markedRuns (fields ++ fields') = markedRuns fields ++ markedRuns fields' :=
  List.flatMap_append

lemma losingRuns_cons (context : DataContext) (field : IfSpan) (fields : List IfSpan) :
    losingRuns context (field :: fields) =
      entriesRuns (field.losing context) ++ losingRuns context fields :=
  List.flatMap_cons

lemma ownRuns_cons (field : IfSpan) (fields : List IfSpan) :
    ownRuns (field :: fields) = field.codeRuns ++ ownRuns fields :=
  List.flatMap_cons

lemma markedRuns_cons (field : IfSpan) (fields : List IfSpan) :
    markedRuns (field :: fields) = field.markerRuns.map MarkerRun.run ++ markedRuns fields :=
  List.flatMap_cons

mutual

/-- The runs that leave the document, those of code and those with markers of the applied fields
are different occurrences among the runs of the field. -/
theorem count_applied (context : DataContext) (run : NodeId) : (field : IfSpan) →
    (losingRuns context (field.applied context)).count run +
      (ownRuns (field.applied context)).count run +
        (markedRuns (field.applied context)).count run ≤ field.runs.count run
  | ⟨condition, first, codeRuns, ifTrue, ifFalse, markerRuns, next⟩ => by
    have hbranch : ∀ branch, branch = ifTrue ∨ branch = ifFalse →
        (losingRuns context (entriesApplied context branch)).count run +
          (ownRuns (entriesApplied context branch)).count run +
            (markedRuns (entriesApplied context branch)).count run ≤
              (entriesRuns branch).count run := by
      rintro branch (rfl | rfl)
      · exact count_entriesApplied context run _
      · exact count_entriesApplied context run _
    have hwinning := hbranch _ (IfSpan.winning_eq_or context
      ⟨condition, first, codeRuns, ifTrue, ifFalse, markerRuns, next⟩)
    simp only [IfSpan.applied_eq, losingRuns_cons, ownRuns_cons, markedRuns_cons,
      List.count_append, IfSpan.count_runs context]
    omega

theorem count_entriesApplied (context : DataContext) (run : NodeId) : (entries : List BranchEntry) →
    (losingRuns context (entriesApplied context entries)).count run +
      (ownRuns (entriesApplied context entries)).count run +
        (markedRuns (entriesApplied context entries)).count run ≤ (entriesRuns entries).count run
  | [] => by simp [entriesApplied, losingRuns, ownRuns, markedRuns]
  | entry :: rest => by
    have hentry := count_entryApplied context run entry
    have hrest := count_entriesApplied context run rest
    simp only [entriesApplied, entriesRuns, losingRuns_append, ownRuns_append, markedRuns_append,
      List.count_append]
    omega

theorem count_entryApplied (context : DataContext) (run : NodeId) : (entry : BranchEntry) →
    (losingRuns context (entry.applied context)).count run +
      (ownRuns (entry.applied context)).count run +
        (markedRuns (entry.applied context)).count run ≤ entry.runs.count run
  | .nested field => by
    rw [BranchEntry.applied, BranchEntry.runs]
    exact count_applied context run field
  | .text _ _ => by simp [BranchEntry.applied, losingRuns, ownRuns, markedRuns]
  | .run _ => by simp [BranchEntry.applied, losingRuns, ownRuns, markedRuns]
  | .fragment _ => by simp [BranchEntry.applied, losingRuns, ownRuns, markedRuns]

end

/-- The runs that leave the document are those of the losing branch, and those that leave it for
the fields inside the winning branch. -/
lemma IfSpan.removedRuns_eq (context : DataContext) (field : IfSpan) :
    field.removedRuns context = entriesRuns (field.losing context) ++
      losingRuns context (entriesApplied context (field.winning context)) := by
  rw [removedRuns, applied_eq, losingRuns_cons]

lemma IfSpan.mem_runs_of_removed {context : DataContext} {field : IfSpan} {run : NodeId}
    (h : run ∈ field.removedRuns context) : run ∈ field.runs := by
  have hcount := count_applied context run field
  have hpos := List.count_pos_iff.2 h
  rw [removedRuns] at hpos
  exact List.count_pos_iff.1 (by omega)

/-- No run of the code of a field that is applied leaves the document. -/
lemma IfSpan.not_removed_of_own {context : DataContext} {field : IfSpan} {run : NodeId}
    (hnodup : field.runs.Nodup) (h : run ∈ ownRuns (field.applied context)) :
    run ∉ field.removedRuns context := by
  intro hremoved
  have hcount := count_applied context run field
  have hown := List.count_pos_iff.2 h
  have hpos := List.count_pos_iff.2 hremoved
  have hone := List.nodup_iff_count_le_one.1 hnodup run
  rw [removedRuns] at hpos
  omega

namespace Document

/-! ## Changes that prune -/

/-- Whether a node is a child of a text element in one of the runs. -/
def InTextOf (d : Document) (runs : List NodeId) (id : NodeId) : Prop :=
  ∃ run ∈ runs, ∃ holder ∈ d.wordDescendants run "t", id ∈ d.children holder

/-- A change of a document that detaches nodes and replaces the values of text nodes, and does
nothing else: no node is moved, and none is new. -/
structure Pruned (d d' : Document) (removed : List NodeId) (edited : NodeId → Prop) : Prop where
  size_eq : d'.size = d.size
  parent_eq : ∀ x, d'.parent x = if x ∈ removed then none else d.parent x
  children_eq : ∀ x, d'.children x = (d.children x).filter (· ∉ removed)
  kind_eq : ∀ x, d'.kind x = d.kind x ∨
    edited x ∧ ∃ old new, d.kind x = .text old ∧ d'.kind x = .text new

namespace Pruned

variable {d d' d'' : Document} {removed removed' : List NodeId} {edited edited' : NodeId → Prop}

lemma refl (d : Document) : d.Pruned d [] edited where
  size_eq := rfl
  parent_eq x := by simp
  children_eq x := by simp
  kind_eq x := .inl rfl

lemma mono (h : d.Pruned d' removed edited) (himp : ∀ x, edited x → edited' x) :
    d.Pruned d' removed edited' where
  size_eq := h.size_eq
  parent_eq := h.parent_eq
  children_eq := h.children_eq
  kind_eq x := (h.kind_eq x).imp_right fun ⟨hedited, hkind⟩ => ⟨himp x hedited, hkind⟩

lemma trans (h : d.Pruned d' removed edited) (h' : d'.Pruned d'' removed' edited) :
    d.Pruned d'' (removed ++ removed') edited where
  size_eq := h'.size_eq.trans h.size_eq
  parent_eq x := by
    rw [h'.parent_eq, h.parent_eq]
    by_cases hx : x ∈ removed <;> by_cases hx' : x ∈ removed' <;> simp [hx, hx']
  children_eq x := by
    rw [h'.children_eq, h.children_eq, List.filter_filter]
    refine List.filter_congr fun child _ => ?_
    simp [Bool.and_comm]
  kind_eq x := by
    rcases h.kind_eq x with hkind | ⟨hedited, old, middle, hold, hmiddle⟩
    · rw [← hkind]
      exact h'.kind_eq x
    · rcases h'.kind_eq x with hkind | ⟨-, middle', new, -, hnew⟩
      · exact .inr ⟨hedited, old, middle, hold, hkind.trans hmiddle⟩
      · exact .inr ⟨hedited, old, new, hold, hnew⟩

/-- Elements stay what they are. -/
lemma isWord_eq (h : d.Pruned d' removed edited) (id : NodeId) (localName : String) :
    d'.isWord id localName = d.isWord id localName := by
  rcases h.kind_eq id with hkind | ⟨-, old, new, hold, hnew⟩
  · simp only [isWord, isElementIn, element?, hkind]
  · rw [isWord_of_kind_text hold, isWord_of_kind_text hnew]

lemma parent_of_parent (h : d.Pruned d' removed edited) {id parent : NodeId}
    (hparent : d'.parent id = some parent) : d.parent id = some parent := by
  rw [h.parent_eq] at hparent
  split at hparent
  · cases hparent
  · exact hparent

theorem wellFormed (h : d.Pruned d' removed edited) (hd : d.WellFormed) : d'.WellFormed where
  parent_of_mem := by
    intro id child hchild
    rw [h.children_eq, List.mem_filter, decide_eq_true_eq] at hchild
    rw [h.parent_eq, if_neg hchild.2]
    exact hd.parent_of_mem hchild.1
  mem_of_parent := by
    intro id child hparent
    have hold := hd.mem_of_parent (h.parent_of_parent hparent)
    rw [h.children_eq, List.mem_filter, decide_eq_true_eq]
    refine ⟨hold, fun hremoved => ?_⟩
    rw [h.parent_eq, if_pos hremoved] at hparent
    cases hparent
  nodup_children id := by
    rw [h.children_eq]
    exact (hd.nodup_children id).filter _
  child_lt_size := by
    intro id child hchild
    rw [h.children_eq] at hchild
    rw [h.size_eq]
    exact hd.child_lt_size (List.mem_of_mem_filter hchild)
  acyclic id hbelow := hd.acyclic id (hbelow.mono fun _ _ => h.parent_of_parent)

/-- No node gets into the text of a run. -/
lemma inTextOf (h : d.Pruned d' removed edited) (hd : d.WellFormed) {runs : List NodeId}
    {id : NodeId} (hid : d'.InTextOf runs id) : d.InTextOf runs id := by
  obtain ⟨run, hrun, holder, hholder, hchild⟩ := hid
  rw [wordDescendants, descendantsIn, List.mem_filter, (h.wellFormed hd).mem_descendants]
    at hholder
  rw [h.children_eq] at hchild
  refine ⟨run, hrun, holder, ?_, List.mem_of_mem_filter hchild⟩
  rw [wordDescendants, descendantsIn, List.mem_filter, hd.mem_descendants]
  refine ⟨hholder.1.mono fun _ _ => h.parent_of_parent, ?_⟩
  exact (h.isWord_eq holder "t").symm.trans hholder.2

end Pruned

lemma InTextOf.mono {d : Document} {runs runs' : List NodeId} {id : NodeId}
    (h : d.InTextOf runs id) (hsubset : runs ⊆ runs') : d.InTextOf runs' id := by
  obtain ⟨run, hrun, hrest⟩ := h
  exact ⟨run, hsubset hrun, hrest⟩

/-! ## Single edits -/

lemma pruned_removeAll {d : Document} (hd : d.WellFormed) (ids : List NodeId)
    (edited : NodeId → Prop) : d.Pruned (d.removeAll ids) ids edited := by
  induction ids generalizing d with
  | nil => exact .refl d
  | cons id ids ih =>
    have hstep : d.Pruned (d.remove id) [id] edited := by
      refine ⟨size_remove d id, fun x => ?_, fun x => ?_, fun x => .inl (kind_remove d id x)⟩
      · simp [parent_remove]
      · simp [hd.children_remove]
    exact hstep.trans (ih (hd.remove id))

lemma mem_runTexts {d : Document} {run id : NodeId} {text : String}
    (h : (id, text) ∈ d.runTexts run) : d.InTextOf [run] id ∧ d.kind id = .text text := by
  obtain ⟨child, hchild, hkind⟩ := List.mem_filterMap.1 h
  obtain ⟨holder, hholder, hmem⟩ := List.mem_flatMap.1 hchild
  split at hkind
  next value hvalue =>
    cases hkind
    exact ⟨⟨run, List.mem_singleton_self run, holder, hholder, hmem⟩, hvalue⟩
  next => cases hkind

lemma pruned_replaceTexts {d : Document} {keep : Side} {texts : List (NodeId × String)}
    {sides : List Side} {edited : NodeId → Prop}
    (htexts : ∀ entry ∈ texts, edited entry.1 ∧ ∃ value, d.kind entry.1 = .text value) :
    d.Pruned (replaceTexts keep d texts sides) [] edited := by
  induction texts generalizing d sides with
  | nil => exact .refl d
  | cons entry texts ih =>
    obtain ⟨id, text⟩ := entry
    obtain ⟨⟨hedited, old, hold⟩, hrest⟩ := List.forall_mem_cons.1 htexts
    rw [replaceTexts]
    set kept := keepPieces keep (Piece.ofText text.toList) sides
    have hkind := kind_setValue_text (String.ofList kept.1) hold
    have hstep : d.Pruned (d.setValue id (String.ofList kept.1)).2 [] edited := by
      refine ⟨by simp, fun x => by simp, fun x => by simp, fun x => ?_⟩
      by_cases hx : x = id
      · subst hx
        exact .inr ⟨hedited, old, _, hold, by rw [hkind, if_pos rfl]⟩
      · exact .inl (by rw [hkind, if_neg hx])
    refine hstep.trans (ih fun entry hentry => ?_)
    obtain ⟨hedited, value, hvalue⟩ := hrest entry hentry
    refine ⟨hedited, ?_⟩
    rw [hkind]
    split
    · exact ⟨_, rfl⟩
    · exact ⟨value, hvalue⟩

lemma pruned_cleanMarkerRun (d : Document) (keep : Side) (marker : MarkerRun) :
    d.Pruned (d.cleanMarkerRun keep marker) [] (d.InTextOf [marker.run]) :=
  pruned_replaceTexts fun (_, text) hentry =>
    ⟨(mem_runTexts hentry).1, text, (mem_runTexts hentry).2⟩

lemma pruned_cleanMarkerRuns {d : Document} (hd : d.WellFormed) (keep : Side)
    (markers : List MarkerRun) :
    d.Pruned (markers.foldl (fun d marker => d.cleanMarkerRun keep marker) d) []
      (d.InTextOf (markers.map MarkerRun.run)) := by
  induction markers generalizing d with
  | nil => exact .refl d
  | cons marker markers ih =>
    have hstep := d.pruned_cleanMarkerRun keep marker
    have hfirst : d.Pruned (d.cleanMarkerRun keep marker) []
        (d.InTextOf ((marker :: markers).map MarkerRun.run)) :=
      hstep.mono fun x hx => hx.mono (by simp)
    refine hfirst.trans ((ih (hstep.wellFormed hd)).mono fun x hx => ?_)
    exact (hstep.inTextOf hd hx).mono (List.subset_cons_self _ _)

/-! ## Fields -/

/-- Applying a field is taking out the runs of its losing branch, applying the fields inside its
winning branch, and cleaning its runs with markers. -/
lemma applyIf_eq (context : DataContext) (d : Document) (field : IfSpan) :
    ∃ keep, applyIf context d field =
      field.markerRuns.foldl (fun d marker => d.cleanMarkerRun keep marker)
        (applyNested context (d.removeAll (entriesRuns (field.losing context)))
          (field.winning context)) := by
  obtain ⟨condition, first, codeRuns, ifTrue, ifFalse, markerRuns, next⟩ := field
  rw [applyIf]
  simp only [IfSpan.losing, IfSpan.winning]
  split
  · exact ⟨.ifTrue, rfl⟩
  · exact ⟨.ifFalse, rfl⟩

mutual

/-- What applying a field changes, whatever the field and the document are. -/
theorem pruned_applyIf (context : DataContext) : (field : IfSpan) → {d : Document} →
    d.WellFormed → d.Pruned (applyIf context d field) (field.removedRuns context)
      (d.InTextOf (markedRuns (field.applied context)))
  | ⟨condition, first, codeRuns, ifTrue, ifFalse, markerRuns, next⟩, d, hd => by
    have hbranch : ∀ branch, branch = ifTrue ∨ branch = ifFalse → ∀ {d : Document}, d.WellFormed →
        d.Pruned (applyNested context d branch) (losingRuns context (entriesApplied context branch))
          (d.InTextOf (markedRuns (entriesApplied context branch))) := by
      rintro branch (rfl | rfl)
      · exact pruned_applyNested context _
      · exact pruned_applyNested context _
    set field : IfSpan := ⟨condition, first, codeRuns, ifTrue, ifFalse, markerRuns, next⟩
    obtain ⟨keep, happly⟩ := applyIf_eq context d field
    have hremove := pruned_removeAll hd (entriesRuns (field.losing context))
      (d.InTextOf (markedRuns (field.applied context)))
    have hd₁ := hremove.wellFormed hd
    have hnested := hbranch _ (field.winning_eq_or context) hd₁
    have hclean := pruned_cleanMarkerRuns (hnested.wellFormed hd₁) keep field.markerRuns
    rw [happly, IfSpan.removedRuns_eq]
    rw [IfSpan.applied_eq, markedRuns_cons] at hremove ⊢
    have hstart := hremove.trans (hnested.mono fun x hx =>
      (hremove.inTextOf hd hx).mono (List.subset_append_right _ _))
    have hall := hstart.trans (hclean.mono fun x hx =>
      (hstart.inTextOf hd hx).mono (List.subset_append_left _ _))
    rwa [List.append_nil] at hall

theorem pruned_applyNested (context : DataContext) : (entries : List BranchEntry) →
    {d : Document} → d.WellFormed → d.Pruned (applyNested context d entries)
      (losingRuns context (entriesApplied context entries))
      (d.InTextOf (markedRuns (entriesApplied context entries)))
  | [], d, _ => .refl d
  | entry :: rest, d, hd => by
    rw [applyNested, entriesApplied, losingRuns_append, markedRuns_append]
    have hentry := pruned_applyEntry context entry hd
    have hrest := pruned_applyNested context rest (hentry.wellFormed hd)
    refine (hentry.mono fun x hx => hx.mono (List.subset_append_left _ _)).trans
      (hrest.mono fun x hx => ?_)
    exact (hentry.inTextOf hd hx).mono (List.subset_append_right _ _)

theorem pruned_applyEntry (context : DataContext) : (entry : BranchEntry) → {d : Document} →
    d.WellFormed → d.Pruned (applyEntry context d entry)
      (losingRuns context (entry.applied context))
      (d.InTextOf (markedRuns (entry.applied context)))
  | .nested field, d, hd => by
    rw [applyEntry, BranchEntry.applied]
    exact pruned_applyIf context field hd
  | .text _ _, d, _ => .refl d
  | .run _, d, _ => .refl d
  | .fragment _, d, _ => .refl d

end

/-! ## Fields of a document -/

lemma WellFormed.parent_ne_none_of_mem_runs {d : Document} (hd : d.WellFormed) {run : NodeId}
    (h : run ∈ d.runs) : d.parent run ≠ none := by
  have hbelow := hd.mem_descendants.1 (List.mem_of_mem_filter h)
  obtain ⟨parent, hparent, -⟩ := Relation.TransGen.head'_iff.1 hbelow
  rw [hparent]
  exact Option.some_ne_none parent

/-- Applying a field of a document detaches the runs of the losing branches and nothing else.  The
order of the nodes that stay is kept, no node is new, and the only nodes that change are text nodes
of the runs with markers of applied fields.  The runs of the code of these fields stay, and so does
everything that is not between the first mark of the field and its closing marker. -/
theorem applyIf_frame {d : Document} (hd : d.WellFormed) {options : Options} {field : IfSpan}
    (hfield : field ∈ (d.ifSpans options).1) (context : DataContext) :
    let after := applyIf context d field
    let applied := field.applied context
    let removed := field.removedRuns context
    (∀ x, d.parent x ≠ none ∧ after.parent x = none ↔ x ∈ removed) ∧
      (∀ x, x ∉ removed → after.parent x = d.parent x) ∧
      (∀ x, after.children x = (d.children x).filter (· ∉ removed)) ∧
      after.size = d.size ∧
      (∀ x, after.kind x ≠ d.kind x → d.InTextOf (markedRuns applied) x ∧
        ∃ old new, d.kind x = .text old ∧ after.kind x = .text new) ∧
      (∀ x, x ∈ ownRuns applied ∨ x ∉ segment d.runs field.first field.next → x ∉ removed) := by
  intro after applied removed
  have hpruned : d.Pruned after removed (d.InTextOf (markedRuns applied)) :=
    pruned_applyIf context field hd
  have hreads := readIf_of_mem_ifSpans hfield
  have hperm : field.runs.Perm (segment d.runs field.first field.next) :=
    readIf_runs_perm hreads
  have hsublist : (segment d.runs field.first field.next).Sublist d.runs :=
    (List.take_sublist _ _).trans (List.drop_sublist _ _)
  have hnodup : field.runs.Nodup := hperm.nodup_iff.2 (hd.nodup_runs.sublist hsublist)
  have hsegment : ∀ x ∈ removed, x ∈ segment d.runs field.first field.next := fun x hx =>
    hperm.mem_iff.1 (IfSpan.mem_runs_of_removed hx)
  refine ⟨fun x => ?_, fun x hx => ?_, hpruned.children_eq, hpruned.size_eq, fun x hx => ?_, ?_⟩
  · rw [hpruned.parent_eq]
    constructor
    · rintro ⟨hparent, hlost⟩
      by_contra hx
      rw [if_neg hx] at hlost
      exact hparent hlost
    · intro hx
      rw [if_pos hx]
      exact ⟨hd.parent_ne_none_of_mem_runs (hsublist.subset (hsegment x hx)), rfl⟩
  · rw [hpruned.parent_eq, if_neg hx]
  · exact (hpruned.kind_eq x).resolve_left hx
  · rintro x (hown | houtside)
    · exact IfSpan.not_removed_of_own hnodup hown
    · exact fun hx => houtside (hsegment x hx)

/-- A field keeps its true branch, and the field inside that branch keeps its false one. -/
theorem applyIf_frame_nested :
    let template : Template :=
      .field ⟨"a", "=", "1"⟩
        (.text "v" (.field ⟨"b", "<>", "2"⟩ (.text "w" .nil) (.text "x" .nil) .nil))
        (.text "y" .nil) .nil
    let context : DataContext := ⟨.object [("a", .string "1"), ("b", .number (.integer 2))]⟩
    let d := ofForest [Tree.page [template.cells]]
    d.WellFormed ∧ ∃ field ∈ (d.ifSpans {}).1,
      (field.removedRuns context).map d.runText = ["y", "w"] ∧
        ∀ x, d.parent x ≠ none ∧ (applyIf context d field).parent x = none ↔
          x ∈ field.removedRuns context := by
  intro template context d
  have hplain : template.Over PlainText := by decide
  have hover : template.Over ContentText := hplain.imp fun _ => PlainText.contentText
  obtain ⟨rows, placed, hsheet, htemplate, hstands, hrow, -⟩ :=
    (displays_ofForest [Tree.page [template.cells]]).exists_placed List.flatten_singleton
  have hspans : d.ifSpans {} = (placed.spans 0, []) :=
    Placed.ifSpans_eq hsheet rfl (htemplate ▸ hover) hstands hrow
  obtain ⟨code, ifTrue, elseRun, ifFalse, endRun, rest, rfl, htrue, hfalse, -⟩ :=
    Placed.eq_field_of_template htemplate
  obtain ⟨v, inner, rfl, hinner⟩ := Placed.eq_text_of_template htrue
  obtain ⟨code', ifTrue', elseRun', ifFalse', endRun', rest', rfl, htrue', hfalse', hrest'⟩ :=
    Placed.eq_field_of_template hinner
  obtain ⟨w, restW, rfl, hrestW⟩ := Placed.eq_text_of_template htrue'
  obtain ⟨x, restX, rfl, hrestX⟩ := Placed.eq_text_of_template hfalse'
  obtain ⟨y, restY, rfl, hrestY⟩ := Placed.eq_text_of_template hfalse
  obtain rfl := Placed.eq_nil_of_template hrest'
  obtain rfl := Placed.eq_nil_of_template hrestW
  obtain rfl := Placed.eq_nil_of_template hrestX
  obtain rfl := Placed.eq_nil_of_template hrestY
  have hfirst : (⟨"a", "=", "1"⟩ : Condition).holds context = true := by decide
  have hsecond : (⟨"b", "<>", "2"⟩ : Condition).holds context = false := by decide
  obtain ⟨-, ⟨-, -, ⟨hw, -⟩, -⟩, -, ⟨hy, -⟩, -⟩ := hstands
  have hd : d.WellFormed := hsheet.wellFormed
  rw [hspans]
  refine ⟨hd, _, List.mem_cons_self, ?_, ?_⟩
  · have hremoved : (Placed.span 0 ⟨"a", "=", "1"⟩ code (.text v "v"
        (.field ⟨"b", "<>", "2"⟩ code' (.text w "w" .nil) elseRun' (.text x "x" .nil) endRun'
          .nil))
          elseRun (.text y "y" .nil) endRun).removedRuns context = [y, w] := by
      simp [IfSpan.removedRuns, Placed.span, IfSpan.applied, hfirst, hsecond, losingRuns,
        IfSpan.losing, entriesApplied, Placed.entries, entriesRuns, BranchEntry.applied,
        BranchEntry.runs]
    rw [hremoved]
    simp [Shows.runText hd hw, Shows.runText hd hy]
  · refine (@applyIf_frame d hd {} _ ?_ context).1
    rw [hspans]
    exact List.mem_cons_self

end Document

end WordFields
