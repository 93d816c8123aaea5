import WordFields.Proofs.Field.Cleaning

/-!
# The order of the fields

All fields of a document are read before any of them is applied, and then they change one document
one after the other.  Where no run is inside another, the order in which they are applied does not
matter (`foldl_applyIf_perm`).  A pass is a sequence of edits at different runs, and edits at runs
that are apart commute (`edit_comm`): both detach what they detach, and neither changes a text that
the other one reads.  Being apart is kept by edits, so a sequence of edits may be permuted
(`foldl_edits_perm`).
-/

namespace WordFields

namespace Document

variable {d : Document}

/-- Whether two runs are different and neither is inside the other. -/
def RunsApart (d : Document) (run run' : NodeId) : Prop :=
  run ≠ run' ∧ ¬ d.Below run run' ∧ ¬ d.Below run' run

namespace RunsApart

variable {run run' : NodeId}

lemma symm (h : d.RunsApart run run') : d.RunsApart run' run :=
  ⟨h.1.symm, h.2.2, h.2.1⟩

/-- No edit brings runs together. -/
lemma edit (h : d.RunsApart run run') (hd : d.WellFormed) (edit : FieldEdit) :
    (edit.apply d).RunsApart run run' := by
  have hparent : ∀ child parent, (edit.apply d).parent child = some parent →
      d.parent child = some parent := fun _ _ => (pruned_edit hd edit).parent_of_parent
  exact ⟨h.1, fun hbelow => h.2.1 (hbelow.mono hparent),
    fun hbelow => h.2.2 (hbelow.mono hparent)⟩

/-- Runs that are apart have no text node in common. -/
lemma not_mem_runTexts (h : d.RunsApart run run') (hd : d.WellFormed) {x : NodeId}
    (hx : x ∈ (d.runTexts run).map Prod.fst) : x ∉ (d.runTexts run').map Prod.fst := by
  intro hx'
  obtain ⟨⟨_, text⟩, hentry, rfl⟩ := List.mem_map.1 hx
  obtain ⟨⟨_, text'⟩, hentry', rfl⟩ := List.mem_map.1 hx'
  have hbelow := hd.below_of_inTextOf (mem_runTexts hentry).1
  have hbelow' := hd.below_of_inTextOf (mem_runTexts hentry').1
  rcases hbelow.comparable hbelow' with heq | hcase | hcase
  · exact h.1 heq
  · exact h.2.1 hcase
  · exact h.2.2 hcase

end RunsApart

/-- An edit leaves the texts of a run alone that is apart from its own. -/
lemma runTexts_edit (hd : d.WellFormed) {edit : FieldEdit} {run : NodeId}
    (h : d.RunsApart edit.run run) : (edit.apply d).runTexts run = d.runTexts run := by
  refine @runTexts_edits_of_apart d hd [edit] run fun other hother => ?_
  rw [List.mem_singleton.1 hother]
  exact ⟨h.1, h.2.2, h.2.1⟩

/-- Of two edits at runs that are apart at most one leaves a text in a given node. -/
lemma lookup_kept (hd : d.WellFormed) {edit edit' : FieldEdit}
    (h : d.RunsApart edit.run edit'.run) {x : NodeId} {text : String}
    (hlookup : (edit.kept (d.runTexts edit.run)).lookup x = some text) :
    (edit'.kept (d.runTexts edit'.run)).lookup x = none := by
  obtain ⟨before, after, hkept, -⟩ := List.lookup_eq_some_iff.1 hlookup
  have hmem : x ∈ (edit.kept (d.runTexts edit.run)).map Prod.fst :=
    List.mem_map.2 ⟨(x, text), hkept ▸ List.mem_append_cons_self, rfl⟩
  refine List.lookup_eq_none_iff.2 fun entry hentry => bne_iff_ne.2 fun heq => ?_
  have hmem' : x ∈ (edit'.kept (d.runTexts edit'.run)).map Prod.fst :=
    heq ▸ List.mem_map_of_mem hentry
  exact h.not_mem_runTexts hd (FieldEdit.mem_map_fst_kept hmem) (FieldEdit.mem_map_fst_kept hmem')

/-- Edits at runs that are apart commute. -/
theorem edit_comm (hd : d.WellFormed) {edit edit' : FieldEdit}
    (h : d.RunsApart edit.run edit'.run) :
    edit'.apply (edit.apply d) = edit.apply (edit'.apply d) := by
  have hfirst : d.Pruned (edit'.apply (edit.apply d)) _ _ := pruned_edits hd [edit, edit']
  have hsecond : d.Pruned (edit.apply (edit'.apply d)) _ _ := pruned_edits hd [edit', edit]
  have hmem : ∀ x, x ∈ [edit, edit'].flatMap FieldEdit.removed ↔
      x ∈ [edit', edit].flatMap FieldEdit.removed := fun x =>
    ((List.Perm.swap edit' edit []).flatMap_right FieldEdit.removed).mem_iff
  refine ext_views (hfirst.size_eq.trans hsecond.size_eq.symm) (fun x => ?_) (fun x => ?_)
    fun x => ?_
  · rw [kind_edit ((pruned_edit hd edit).wellFormed hd), runTexts_edit hd h, kind_edit hd edit,
      kind_edit ((pruned_edit hd edit').wellFormed hd), runTexts_edit hd h.symm, kind_edit hd edit']
    cases hlookup : (edit.kept (d.runTexts edit.run)).lookup x with
    | none => rfl
    | some text => rw [lookup_kept hd h hlookup]; rfl
  · rw [hfirst.parent_eq, hsecond.parent_eq]
    simp only [hmem]
  · rw [hfirst.children_eq, hsecond.children_eq]
    simp only [hmem]

/-- Edits at runs that are apart from each other may be carried out in any order. -/
theorem foldl_edits_perm (hd : d.WellFormed) {edits edits' : List FieldEdit}
    (hperm : edits'.Perm edits)
    (hapart : edits'.Pairwise fun edit edit' => d.RunsApart edit.run edit'.run) :
    edits'.foldl FieldEdit.apply d = edits.foldl FieldEdit.apply d := by
  induction hperm generalizing d with
  | nil => rfl
  | cons edit _ ih =>
    obtain ⟨-, hrest⟩ := List.pairwise_cons.1 hapart
    exact ih ((pruned_edit hd edit).wellFormed hd) (hrest.imp fun h => h.edit hd edit)
  | swap edit edit' rest =>
    obtain ⟨hhead, -⟩ := List.pairwise_cons.1 hapart
    have hcomm := edit_comm hd (hhead edit List.mem_cons_self)
    exact congrArg (rest.foldl FieldEdit.apply) hcomm
  | @trans edits' middle edits hperm _ ih ih' =>
    have hmiddle := (hperm.pairwise_iff RunsApart.symm).1 hapart
    exact (ih hd hapart).trans (ih' hd hmiddle)

/-- Where no run is inside another, the edits of a pass are at runs that are apart. -/
lemma WellFormed.pairwise_ifEdits (hd : d.WellFormed)
    (hflat : ∀ run ∈ d.runs, d.wordDescendants run "r" = []) (context : DataContext)
    (options : Options) :
    (d.ifEdits context options).Pairwise fun edit edit' => d.RunsApart edit.run edit'.run := by
  have hne : (d.ifEdits context options).Pairwise fun edit edit' => edit.run ≠ edit'.run :=
    List.pairwise_map.1 (hd.nodup_ifEdits context options)
  exact hne.imp_of_mem fun hedit hedit' hne =>
    ⟨hne, hd.not_below_ifEdits hflat hedit hedit', hd.not_below_ifEdits hflat hedit' hedit⟩

/-- Where no run is inside another, the fields of a document may be applied in any order. -/
theorem foldl_applyIf_perm (hd : d.WellFormed)
    (hflat : ∀ run ∈ d.runs, d.wordDescendants run "r" = []) (context : DataContext)
    (options : Options) {fields : List IfSpan} (hperm : fields.Perm (d.ifSpans options).1) :
    fields.foldl (applyIf context) d = (d.processIfFields context options).document := by
  have hedits : (fields.flatMap (IfSpan.edits context)).Perm (d.ifEdits context options) :=
    hperm.flatMap_right _
  rw [foldl_applyIf, processIfFields_document]
  refine foldl_edits_perm hd hedits ?_
  exact (hedits.symm.pairwise_iff RunsApart.symm).1 (hd.pairwise_ifEdits hflat context options)

/-- Two fields of one paragraph, the second one applied first. -/
theorem foldl_applyIf_reverse :
    let field (left : String) : List Cell :=
      [.field ⟨left, "=", "1"⟩, .run [.text "kept".toList, .marker .elseMarker,
        .text "lost".toList, .marker .endMarker, .text "after".toList]]
    let d := ofForest [Tree.page [field "a" ++ field "b"]]
    let context : DataContext := ⟨.object [("a", .string "1"), ("b", .string "2")]⟩
    d.WellFormed ∧ (∀ run ∈ d.runs, d.wordDescendants run "r" = []) ∧
      (d.ifSpans {}).1.map IfSpan.first = [0, 6] ∧
      (d.ifSpans {}).1.reverse.Perm (d.ifSpans {}).1 ∧
      (d.ifSpans {}).1.reverse.foldl (applyIf context) d =
        (d.processIfFields context {}).document ∧
      let after := (d.processIfFields context {}).document
      (after.runs.map after.runText).filter (· ≠ "") =
        ["\x7bIF\x7d", "keptafter", "\x7bIF\x7d", "lostafter"] := by
  intro field d context
  have hd : d.WellFormed := (displays_ofForest _).wellFormed
  have hall : d.runs.all (fun run => d.wordDescendants run "r" == []) = true := by
    decide +kernel
  have hflat : ∀ run ∈ d.runs, d.wordDescendants run "r" = [] := fun run hrun =>
    eq_of_beq (List.all_eq_true.1 hall run hrun)
  have hperm : (d.ifSpans {}).1.reverse.Perm (d.ifSpans {}).1 := List.reverse_perm _
  exact ⟨hd, hflat, by decide +kernel, hperm, foldl_applyIf_perm hd hflat context {} hperm,
    by decide +kernel⟩

end Document

end WordFields
