import WordFields.Proofs.Field.Matching
import WordFields.Proofs.Field.Ordering

/-!
# Applying the fields of documents that differ in some texts

An edit at related runs keeps two documents mirrors of each other, if what it keeps of the texts
matches (`Mirrors.edit`).  This is so in two cases.  If the relation is strict the texts are cut at
the same positions whenever the edit comes up (`Mirrors.edits_of_strict`).  If no run is inside
another, no edit changes a text before it is cut, and what is kept of the texts that were read
matches (`Mirrors.edits_of_apart`).

In either case a pass applies the same fields to the two documents and leaves mirrors of each other
(`Mirrors.processIfFields`).
-/

namespace WordFields

namespace Document

variable {d d' e e' : Document} {T : NodeId → NodeId → Prop} {veiled : NodeId → Prop}
  {strict : Prop}

/-! ## Texts without a marker -/

/-- No edit puts a marker into a text that had none. -/
lemma Unmarked.edit {x : NodeId} (h : d.Unmarked x) (hd : d.WellFormed) (edit : FieldEdit) :
    (edit.apply d).Unmarked x := by
  obtain ⟨text, hkind, hunmarked⟩ := h
  rw [Unmarked, kind_edit hd]
  cases hlookup : (edit.kept (d.runTexts edit.run)).lookup x with
  | none => exact ⟨text, hkind, hunmarked⟩
  | some new =>
    refine ⟨new, rfl, ?_⟩
    obtain ⟨before, after, hsplit, -⟩ := List.lookup_eq_some_iff.1 hlookup
    have hmem : (x, new) ∈ edit.kept (d.runTexts edit.run) := hsplit ▸ List.mem_append_cons_self
    cases edit with
    | remove run => cases hmem
    | clean keep marker =>
      obtain ⟨kept, hkept, heq⟩ := List.mem_map.1 hmem
      obtain ⟨entry, hentry, hfst, hsublist⟩ := exists_of_mem_keptNodes hkept
      have hx : entry.1 = x := hfst.symm.trans (congrArg Prod.fst heq)
      have hold : entry.2 = text := by
        have hkind' := (mem_runTexts hentry).2
        rw [hx, hkind] at hkind'
        exact (NodeKind.text.inj hkind').symm
      rw [hold, Piece.ofText_of_cut?_none (Marker.occursIn_eq_false_iff.1 hunmarked)] at hsublist
      obtain rfl : String.ofList kept.2.flatten = new := congrArg Prod.snd heq
      rw [String.toList_ofList]
      rcases List.sublist_singleton.1 hsublist with hnil | hself
      · rw [hnil]
        rfl
      · rw [hself, List.flatten_singleton]
        exact hunmarked

lemma HoldsUnmarked.pruned {removed : List NodeId} {edited : NodeId → Prop} {x : NodeId}
    (h : d.HoldsUnmarked x) (hpruned : d.Pruned e removed edited)
    (hkind : ∀ y, d.Unmarked y → e.Unmarked y) : e.HoldsUnmarked x := by
  intro child hchild
  rw [hpruned.children_eq] at hchild
  obtain ⟨hunmarked, hleaf⟩ := h child (List.mem_of_mem_filter hchild)
  refine ⟨hkind child hunmarked, ?_⟩
  rw [hpruned.children_eq, hleaf]
  rfl

lemma Pruned.loose {removed : List NodeId} {edited : NodeId → Prop} {x : NodeId}
    (hpruned : d.Pruned e removed edited) (h : d.Loose veiled x) : e.Loose veiled x :=
  fun top htop => h top (hpruned.parent_of_parent htop)

namespace Mirrors

/-! ## One edit -/

/-- Documents stay mirrors of each other if counterparts are detached and changed alike. -/
lemma pruned (h : Mirrors d d' T veiled strict) {removed removed' : List NodeId}
    {edited edited' : NodeId → Prop} (hpruned : d.Pruned e removed edited)
    (hpruned' : d'.Pruned e' removed' edited')
    (hremoved : ∀ {x x'}, T x x' → (x ∈ removed ↔ x' ∈ removed'))
    (hunmarked : ∀ x, d.Unmarked x → e.Unmarked x)
    (hunmarked' : ∀ x, d'.Unmarked x → e'.Unmarked x)
    (hkind : ∀ {x x'}, T x x' → e'.kind x' = e.kind x ∨
      d.Loose veiled x ∧ e.Unmarked x ∧ e'.Unmarked x') :
    Mirrors e e' T veiled strict where
  wellFormed := hpruned.wellFormed h.wellFormed
  wellFormed' := hpruned'.wellFormed h.wellFormed'
  biUnique := h.biUnique
  root := h.root
  isWord_veiled hx := (hpruned.isWord_eq _ _).trans (h.isWord_veiled hx)
  not_in_instruction hx hinstruction hbelow :=
    h.not_in_instruction hx ((hpruned.isWord_eq _ _).symm.trans hinstruction)
      (hbelow.mono fun _ _ => hpruned.parent_of_parent)
  parent {x x'} hx := by
    rw [hpruned.parent_eq, hpruned'.parent_eq]
    by_cases hmem : x ∈ removed
    · rw [if_pos hmem, if_pos ((hremoved hx).1 hmem)]
      exact .none
    · rw [if_neg hmem, if_neg (mt (hremoved hx).2 hmem)]
      exact h.parent hx
  children hx hplain := by
    rw [hpruned.children_eq, hpruned'.children_eq]
    refine rel_filter_of_eq (h.children hx hplain) fun child child' hchild => ?_
    rw [decide_eq_decide, not_iff_not]
    exact (hremoved hchild).symm
  holdsUnmarked hx hveiled :=
    ⟨(h.holdsUnmarked hx hveiled).1.pruned hpruned hunmarked,
      (h.holdsUnmarked hx hveiled).2.pruned hpruned' hunmarked'⟩
  kind hx := (hkind hx).imp_right fun hloose => ⟨hpruned.loose hloose.1, hloose.2⟩
  strict_of_veiled hx htop := h.strict_of_veiled hx (hpruned.parent_of_parent htop)

/-- The same edit at related runs, of which matching texts are kept, keeps documents mirrors of each
other. -/
theorem edit (h : Mirrors d d' T veiled strict) {edit edit' : FieldEdit}
    (hedit : FieldEdit.Parallel T (MatchedMarkers d d' T (d.Loose veiled) strict) edit edit') :
    Mirrors (edit.apply d) (edit'.apply d') T veiled strict := by
  refine h.pruned (pruned_edit h.wellFormed edit) (pruned_edit h.wellFormed' edit') ?_
    (fun x hx => hx.edit h.wellFormed edit) (fun x hx => hx.edit h.wellFormed' edit') ?_
  · intro x x' hx
    cases hedit with
    | remove hrun =>
      rw [FieldEdit.removed, FieldEdit.removed, List.mem_singleton, List.mem_singleton]
      exact Relator.rel_eq h.biUnique hx hrun
    | clean _ => exact iff_of_false List.not_mem_nil List.not_mem_nil
  · intro x x' hx
    rcases h.kind hx with hkind | ⟨hloose, hold, hold'⟩
    · have hlookup : (edit'.kept (d'.runTexts edit'.run)).lookup x' =
          (edit.kept (d.runTexts edit.run)).lookup x ∨ d.Loose veiled x ∧ ∃ text text',
            (edit.kept (d.runTexts edit.run)).lookup x = some text ∧
              (edit'.kept (d'.runTexts edit'.run)).lookup x' = some text' ∧
                Marker.occursIn text.toList = false ∧ Marker.occursIn text'.toList = false := by
        cases hedit with
        | remove _ => exact .inl rfl
        | @clean keep _ _ hmarker => exact (hmarker.kept keep).lookup h.biUnique hx
      have hnew := kind_edit h.wellFormed edit x
      have hnew' := kind_edit h.wellFormed' edit' x'
      rcases hlookup with hsame | ⟨hloose, text, text', htext, htext', hunmarked, hunmarked'⟩
      · exact .inl (by rw [hnew, hnew', hsame, hkind])
      · rw [htext] at hnew
        rw [htext'] at hnew'
        exact .inr ⟨hloose, ⟨text, hnew, hunmarked⟩, ⟨text', hnew', hunmarked'⟩⟩
    · exact .inr ⟨hloose, hold.edit h.wellFormed edit, hold'.edit h.wellFormed' edit'⟩

/-! ## Many edits -/

/-- If the relation is strict, texts are cut alike whatever was cut before. -/
theorem edits_of_strict (h : Mirrors d d' T veiled strict) (hstrict : strict)
    {edits edits' : List FieldEdit}
    (hedits : List.Forall₂ (FieldEdit.Parallel T fun marker marker' =>
      T marker.run marker'.run ∧ marker'.sides = marker.sides) edits edits') :
    Mirrors (edits.foldl FieldEdit.apply d) (edits'.foldl FieldEdit.apply d') T veiled strict := by
  induction hedits generalizing d d' with
  | nil => exact h
  | cons hedit _ ih =>
    refine ih (h.edit (hedit.imp fun marker marker' ⟨hrun, hsides⟩ => ⟨hrun, fun keep => ?_,
      fun _ => hsides⟩))
    rw [hsides]
    exact (h.matched hrun).kept hstrict keep marker.sides

/-- If the runs are apart, texts are cut as they were read. -/
theorem edits_of_apart (h : Mirrors d d' T veiled strict) {edits edits' : List FieldEdit}
    (hedits : List.Forall₂
      (FieldEdit.Parallel T (MatchedMarkers d d' T (d.Loose veiled) strict)) edits edits')
    (hapart : edits.Pairwise fun edit other => d.RunsApart edit.run other.run)
    (hapart' : edits'.Pairwise fun edit other => d'.RunsApart edit.run other.run) :
    Mirrors (edits.foldl FieldEdit.apply d) (edits'.foldl FieldEdit.apply d') T veiled strict := by
  induction edits generalizing d d' edits' with
  | nil =>
    cases hedits
    exact h
  | cons edit edits ih =>
    obtain ⟨edit', edits', hedit, hrest, rfl⟩ := List.forall₂_cons_left_iff.1 hedits
    obtain ⟨hhead, htail⟩ := List.pairwise_cons.1 hapart
    obtain ⟨hhead', htail'⟩ := List.pairwise_cons.1 hapart'
    have hd := h.wellFormed
    have hd' := h.wellFormed'
    refine ih (h.edit hedit) ((rel_mem hrest).imp fun other other' hothers => ?_)
      (htail.imp fun hother => hother.edit hd edit) (htail'.imp fun hother => hother.edit hd' edit')
    obtain ⟨hmem, hmem', hother⟩ := hothers
    cases hother with
    | remove hrun => exact .remove hrun
    | @clean keep marker marker' hmarker =>
      -- the head edit leaves the texts of both marker runs alone
      have htexts : (edit.apply d).runTexts marker.run = d.runTexts marker.run :=
        runTexts_edit hd (hhead _ hmem)
      have htexts' : (edit'.apply d').runTexts marker'.run = d'.runTexts marker'.run :=
        runTexts_edit hd' (hhead' _ hmem')
      refine .clean ⟨hmarker.related, fun keep => ?_, hmarker.sides_eq⟩
      rw [htexts, htexts']
      exact (hmarker.kept keep).mono fun _ hloose => (pruned_edit hd edit).loose hloose

/-! ## A pass -/

section

variable {options options' : Options} (h : Mirrors d d' T veiled strict)
  (hpolicy : options'.elsePolicy = options.elsePolicy) (context : DataContext)

include h hpolicy

/-- The passes edit related runs in the same way. -/
lemma ifEdits : List.Forall₂
    (FieldEdit.Parallel T (MatchedMarkers d d' T (d.Loose veiled) strict))
    (d.ifEdits context options) (d'.ifEdits context options') :=
  List.rel_flatMap (h.ifSpans hpolicy context).1 fun _ _ hfield => hfield.edits

/-- The passes count and report the same. -/
lemma count_eq : (d'.processIfFields context options').count =
    (d.processIfFields context options).count :=
  (h.ifSpans hpolicy context).1.length_eq.symm

lemma diagnostics_eq : (d'.processIfFields context options').diagnostics =
    (d.processIfFields context options).diagnostics :=
  (h.ifSpans hpolicy context).2

/-- The passes apply the same fields. -/
lemma applied_eq :
    ((d'.ifSpans options').1.flatMap (IfSpan.applied context)).map IfSpan.heading =
      ((d.ifSpans options).1.flatMap (IfSpan.applied context)).map IfSpan.heading := by
  rw [List.map_flatMap, List.map_flatMap, eq_comm, ← List.forall₂_eq_eq_eq]
  refine List.rel_flatMap (h.ifSpans hpolicy context).1 fun field field' hfield => ?_
  rw [List.forall₂_eq_eq_eq]
  exact hfield.applied_eq.symm

/-- The passes take out related runs. -/
lemma removed : List.Forall₂ T ((d.ifEdits context options).flatMap FieldEdit.removed)
    ((d'.ifEdits context options').flatMap FieldEdit.removed) := by
  refine List.rel_flatMap (h.ifEdits hpolicy context) fun edit edit' hedit => ?_
  cases hedit with
  | remove hrun => exact .cons hrun .nil
  | clean _ => exact .nil

/-- The passes leave documents that mirror each other. -/
theorem processIfFields
    (hcase : strict ∨ ∀ run ∈ d.runs, d.wordDescendants run "r" = []) :
    Mirrors (d.processIfFields context options).document
      (d'.processIfFields context options').document T veiled strict := by
  rw [processIfFields_document, processIfFields_document]
  have hedits := h.ifEdits hpolicy context
  rcases hcase with hstrict | hflat
  · refine h.edits_of_strict hstrict (hedits.imp fun _ _ hedit => hedit.imp ?_)
    exact fun _ _ hmarker => ⟨hmarker.related, hmarker.sides_eq hstrict⟩
  · have hflat' : ∀ run' ∈ d'.runs, d'.wordDescendants run' "r" = [] := by
      intro run' hrun'
      obtain ⟨run, hrun, hrel⟩ := exists_rel_of_mem h.runs hrun'
      have hinside := h.alike.wordDescendants hrel "r"
      rw [hflat run hrun] at hinside
      exact List.forall₂_nil_left_iff.1 hinside
    exact h.edits_of_apart hedits (h.wellFormed.pairwise_ifEdits hflat context options)
      (h.wellFormed'.pairwise_ifEdits hflat' context options')

end

end Mirrors

end Document

end WordFields
