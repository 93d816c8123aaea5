import WordFields.Proofs.Field.Editing
import WordFields.Proofs.Field.Seam

/-!
# What is left in runs with markers

Cleaning a run with markers replaces each of its texts by those of its parts that belong to the kept
side (`runTexts_cleanMarkerRun`).  In a pass over the fields of a document other edits come before
and after it.  Where no run is inside another they do not concern the run, so the texts after the
pass are known exactly; in general a text can be in several runs with markers and be cleaned once
for each of them, and all that is known is that it was clipped at least once.

Deleting the markers of a text does not make it free of markers: those texts that are kept are put
together, and where they meet a new marker can arise.  `processIfFields_markers` says that this is
the only way in which a marker is left after a pass, and `not_processIfFields_markers_absent` shows
a document in which it happens.
-/

namespace WordFields

/-! ## The texts that are kept -/

/-- The texts among some pieces that stay when one side is kept, the sides being used up as in
`Document.keepPieces`. -/
def keptTexts (keep : Side) : List Piece → List Side → List (List Char)
  | [], _ => []
  | .marker _ :: pieces, sides => keptTexts keep pieces sides
  | .text text :: pieces, sides =>
    if sides.headD .outside = keep ∨ sides.headD .outside = .outside then
      text :: keptTexts keep pieces sides.tail
    else keptTexts keep pieces sides.tail

/-- The text nodes of a run, each with what is kept of its text. -/
def keptNodes (keep : Side) : List (NodeId × String) → List Side → List (NodeId × List (List Char))
  | [], _ => []
  | (id, text) :: texts, sides =>
    (id, keptTexts keep (Piece.ofText text.toList) sides) ::
      keptNodes keep texts (sides.drop (Piece.texts (Piece.ofText text.toList)).length)

/-- A text node with the text that is kept. -/
def joinKept (kept : NodeId × List (List Char)) : NodeId × String :=
  (kept.1, String.ofList kept.2.flatten)

lemma keptTexts_sublist (keep : Side) (pieces : List Piece) (sides : List Side) :
    (keptTexts keep pieces sides).Sublist (Piece.texts pieces) := by
  induction pieces generalizing sides with
  | nil => exact List.Sublist.refl _
  | cons piece pieces ih =>
    cases piece with
    | marker found => exact ih sides
    | text content =>
      rw [keptTexts, Piece.texts_cons_text]
      split
      · exact (ih sides.tail).cons_cons content
      · exact (ih sides.tail).cons content

/-- Every entry is for a node of the run, and has some of the texts between the markers of its
text. -/
lemma exists_of_mem_keptNodes {keep : Side} {texts : List (NodeId × String)} {sides : List Side}
    {kept : NodeId × List (List Char)} (h : kept ∈ keptNodes keep texts sides) :
    ∃ entry ∈ texts, kept.1 = entry.1 ∧
      kept.2.Sublist (Piece.texts (Piece.ofText entry.2.toList)) := by
  induction texts generalizing sides with
  | nil => cases h
  | cons entry texts ih =>
    rcases List.mem_cons.1 h with rfl | hrest
    · exact ⟨entry, List.mem_cons_self, rfl, keptTexts_sublist keep _ sides⟩
    · obtain ⟨entry', hentry', hkept⟩ := ih hrest
      exact ⟨entry', List.mem_cons_of_mem _ hentry', hkept⟩

lemma map_fst_keptNodes (keep : Side) (texts : List (NodeId × String)) (sides : List Side) :
    (keptNodes keep texts sides).map Prod.fst = texts.map Prod.fst := by
  induction texts generalizing sides with
  | nil => rfl
  | cons entry texts ih => rw [keptNodes, List.map_cons, List.map_cons, ih]

/-- What an edit leaves of the texts of its run. -/
def FieldEdit.kept (texts : List (NodeId × String)) : FieldEdit → List (NodeId × String)
  | .remove _ => []
  | .clean keep marker => (keptNodes keep texts marker.sides).map joinKept

lemma FieldEdit.mem_map_fst_kept {texts : List (NodeId × String)} {edit : FieldEdit} {x : NodeId}
    (h : x ∈ (edit.kept texts).map Prod.fst) : x ∈ texts.map Prod.fst := by
  cases edit with
  | remove run => cases h
  | clean keep marker =>
    rw [kept, List.map_map] at h
    rwa [← map_fst_keptNodes keep texts marker.sides]

/-- What is kept of the texts of a run has a marker exactly where one is across a seam. -/
lemma occursIn_of_mem_keptNodes {keep : Side} {texts : List (NodeId × String)} {sides : List Side}
    {kept : NodeId × List (List Char)} (h : kept ∈ keptNodes keep texts sides) :
    Marker.occursIn (joinKept kept).2.toList = true ↔
      ∃ marker : Marker, marker.Straddles kept.2 := by
  obtain ⟨entry, -, -, hsublist⟩ := exists_of_mem_keptNodes h
  rw [joinKept, String.toList_ofList]
  exact Piece.occursIn_flatten_iff hsublist

namespace Document

lemma keepPieces_eq (keep : Side) (pieces : List Piece) (sides : List Side) :
    keepPieces keep pieces sides =
      ((keptTexts keep pieces sides).flatten, sides.drop (Piece.texts pieces).length) := by
  induction pieces generalizing sides with
  | nil => rfl
  | cons piece pieces ih =>
    cases piece with
    | marker found =>
      rw [keepPieces, ih, keptTexts, Piece.texts_cons_marker]
    | text content =>
      have hdrop : sides.tail.drop (Piece.texts pieces).length =
          sides.drop (Piece.texts (.text content :: pieces)).length := by
        rw [Piece.texts_cons_text, List.length_cons, ← List.drop_one, List.drop_drop, Nat.add_comm]
      rw [keepPieces, keptTexts, ih, hdrop]
      by_cases hside : sides.headD .outside = keep ∨ sides.headD .outside = .outside
      · simp only [hside, if_true, List.flatten_cons]
      · simp only [hside, if_false]

/-! ## The texts of a run -/

/-- The text nodes of a run are the text nodes below its text elements, each with its text. -/
lemma mem_runTexts_iff {d : Document} {run id : NodeId} {text : String} :
    (id, text) ∈ d.runTexts run ↔ d.InTextOf [run] id ∧ d.kind id = .text text := by
  refine ⟨mem_runTexts, ?_⟩
  rintro ⟨⟨run', hrun', holder, hholder, hchild⟩, hkind⟩
  obtain rfl := List.mem_singleton.1 hrun'
  refine List.mem_filterMap.2 ⟨id, List.mem_flatMap.2 ⟨holder, hholder, hchild⟩, ?_⟩
  simp only [hkind]

/-- The children of the text elements of a run. -/
def textNodes (d : Document) (run : NodeId) : List NodeId :=
  (d.wordDescendants run "t").flatMap d.children

lemma map_fst_runTexts_sublist (d : Document) (run : NodeId) :
    ((d.runTexts run).map Prod.fst).Sublist (d.textNodes run) := by
  show (((d.textNodes run).filterMap _).map Prod.fst).Sublist (d.textNodes run)
  induction d.textNodes run with
  | nil => exact .slnil
  | cons id ids ih =>
    rw [List.filterMap_cons]
    split
    · exact ih.cons id
    next entry hentry =>
      split at hentry
      next value _ =>
        cases hentry
        exact ih.cons_cons id
      next => cases hentry

lemma WellFormed.nodup_textNodes {d : Document} (hd : d.WellFormed) (run : NodeId) :
    (d.textNodes run).Nodup := by
  refine List.nodup_flatMap.2 ⟨fun holder _ => hd.nodup_children holder, ?_⟩
  apply ((hd.nodup_descendants run).filter _).imp
  intro holder holder' hne id hid hid'
  exact hne (Option.some.inj ((hd.parent_of_mem hid).symm.trans (hd.parent_of_mem hid')))

lemma WellFormed.nodup_runTexts {d : Document} (hd : d.WellFormed) (run : NodeId) :
    ((d.runTexts run).map Prod.fst).Nodup :=
  (hd.nodup_textNodes run).sublist (d.map_fst_runTexts_sublist run)

/-- The text nodes of a run are the same after a change that takes nothing out of the run. -/
lemma Pruned.textNodes_eq {d d' : Document} {removed : List NodeId} {edited : NodeId → Prop}
    (h : d.Pruned d' removed edited) (hd : d.WellFormed) {run : NodeId}
    (hremoved : ∀ x ∈ removed, ¬ d.Below run x) : d'.textNodes run = d.textNodes run := by
  have hchildren : ∀ x, x = run ∨ d.Below run x → d'.children x = d.children x := by
    intro x hx
    rw [h.children_eq, List.filter_eq_self]
    intro child hchild
    have hbelow : d.Below run child := by
      have hparent := below_of_parent (hd.parent_of_mem hchild)
      rcases hx with rfl | hx
      · exact hparent
      · exact hx.trans hparent
    exact decide_eq_true fun hmem => hremoved child hmem hbelow
  have hholders : d'.wordDescendants run "t" = d.wordDescendants run "t" := by
    unfold wordDescendants descendantsIn
    rw [hd.descendants_congr (h.wellFormed hd) hchildren]
    exact List.filter_congr fun holder _ => h.isWord_eq holder "t"
  rw [textNodes, hholders]
  refine List.flatMap_congr fun holder hholder => hchildren holder (.inr ?_)
  exact hd.mem_descendants.1 (List.mem_of_mem_filter hholder)

lemma WellFormed.below_of_inTextOf {d : Document} (hd : d.WellFormed) {run id : NodeId}
    (h : d.InTextOf [run] id) : d.Below run id := by
  obtain ⟨run', hrun, holder, hholder, hchild⟩ := h
  obtain rfl := List.mem_singleton.1 hrun
  have hbelow := hd.mem_descendants.1 (List.mem_of_mem_filter hholder)
  exact hbelow.trans (below_of_parent (hd.parent_of_mem hchild))

/-- The nodes with the texts of a run are the same after a change that takes nothing out of it. -/
lemma Pruned.map_fst_runTexts {d d' : Document} {removed : List NodeId} {edited : NodeId → Prop}
    (h : d.Pruned d' removed edited) (hd : d.WellFormed) {run : NodeId}
    (hremoved : ∀ x ∈ removed, ¬ d.Below run x) :
    (d'.runTexts run).map Prod.fst = (d.runTexts run).map Prod.fst := by
  show ((d'.textNodes run).filterMap _).map Prod.fst =
    ((d.textNodes run).filterMap _).map Prod.fst
  rw [h.textNodes_eq hd hremoved, List.map_filterMap, List.map_filterMap]
  refine List.filterMap_congr fun id _ => ?_
  rcases h.kind_eq id with hkind | ⟨-, old, new, hold, hnew⟩
  · rw [hkind]
  · rw [hold, hnew]
    rfl

/-- No text gets into a run. -/
lemma Pruned.exists_old {d d' : Document} {removed : List NodeId} {edited : NodeId → Prop}
    (h : d.Pruned d' removed edited) (hd : d.WellFormed) {run id : NodeId} {new : String}
    (hnew : (id, new) ∈ d'.runTexts run) : ∃ old, (id, old) ∈ d.runTexts run := by
  obtain ⟨hplace, hkind⟩ := mem_runTexts_iff.1 hnew
  rcases h.kind_eq id with hsame | ⟨-, old, -, hold, -⟩
  · exact ⟨new, mem_runTexts_iff.2 ⟨h.inTextOf hd hplace, hsame.symm.trans hkind⟩⟩
  · exact ⟨old, mem_runTexts_iff.2 ⟨h.inTextOf hd hplace, hold⟩⟩

/-! ## Cleaning a run -/

/-- Each text node in the list gets what is kept of its text, and no other node changes. -/
lemma kind_replaceTexts {keep : Side} {d : Document} {texts : List (NodeId × String)}
    {sides : List Side} (hnodup : (texts.map Prod.fst).Nodup)
    (htexts : ∀ entry ∈ texts, d.kind entry.1 = .text entry.2) :
    (∀ x, x ∉ texts.map Prod.fst → (replaceTexts keep d texts sides).kind x = d.kind x) ∧
      ∀ kept ∈ keptNodes keep texts sides,
        (replaceTexts keep d texts sides).kind kept.1 = .text (joinKept kept).2 := by
  induction texts generalizing d sides with
  | nil => exact ⟨fun x _ => rfl, fun kept hkept => by cases hkept⟩
  | cons entry texts ih =>
    obtain ⟨id, text⟩ := entry
    rw [List.map_cons, List.nodup_cons] at hnodup
    obtain ⟨hhead, htail⟩ := List.forall_mem_cons.1 htexts
    rw [replaceTexts, keepPieces_eq]
    set new := String.ofList (keptTexts keep (Piece.ofText text.toList) sides).flatten
    have hkind := kind_setValue_text new hhead
    have hrest : ∀ entry ∈ texts, (d.setValue id new).2.kind entry.1 = .text entry.2 := by
      intro entry hentry
      have hne : entry.1 ≠ id := by
        intro heq
        have hagain := List.mem_map_of_mem (f := Prod.fst) hentry
        rw [heq] at hagain
        exact hnodup.1 hagain
      rw [hkind, if_neg hne]
      exact htail entry hentry
    obtain ⟨houtside, hinside⟩ := @ih _
      (sides.drop (Piece.texts (Piece.ofText text.toList)).length) hnodup.2 hrest
    constructor
    · intro x hx
      rw [List.map_cons, List.mem_cons, not_or] at hx
      rw [houtside x hx.2, hkind, if_neg hx.1]
    · intro kept hkept
      rw [keptNodes] at hkept
      rcases List.mem_cons.1 hkept with rfl | hkept
      · rw [houtside id hnodup.1, hkind, if_pos rfl]
        rfl
      · exact hinside kept hkept

lemma kind_cleanMarkerRun {d : Document} (hd : d.WellFormed) (keep : Side) (marker : MarkerRun) :
    (∀ x, x ∉ (d.runTexts marker.run).map Prod.fst →
      (d.cleanMarkerRun keep marker).kind x = d.kind x) ∧
      ∀ kept ∈ keptNodes keep (d.runTexts marker.run) marker.sides,
        (d.cleanMarkerRun keep marker).kind kept.1 = .text (joinKept kept).2 :=
  kind_replaceTexts (hd.nodup_runTexts marker.run) fun _ hentry => (mem_runTexts hentry).2

/-- Lists of text nodes with their texts are determined by the nodes. -/
lemma eq_of_map_fst_eq {d : Document} {texts texts' : List (NodeId × String)}
    (htexts : ∀ entry ∈ texts, d.kind entry.1 = .text entry.2)
    (htexts' : ∀ entry ∈ texts', d.kind entry.1 = .text entry.2)
    (h : texts.map Prod.fst = texts'.map Prod.fst) : texts = texts' := by
  induction texts generalizing texts' with
  | nil => exact (List.map_eq_nil_iff.1 h.symm).symm
  | cons entry texts ih =>
    cases texts' with
    | nil => cases h
    | cons entry' texts' =>
      obtain ⟨hhead, htail⟩ := List.forall_mem_cons.1 htexts
      obtain ⟨hhead', htail'⟩ := List.forall_mem_cons.1 htexts'
      obtain ⟨hfst, hrest⟩ := List.cons.inj h
      have hsnd : entry.2 = entry'.2 := by
        rw [hfst, hhead'] at hhead
        exact (NodeKind.text.inj hhead).symm
      rw [Prod.ext hfst hsnd, ih htail htail' hrest]

/-- The texts of a run that has been cleaned. -/
theorem runTexts_cleanMarkerRun {d : Document} (hd : d.WellFormed) (keep : Side)
    (marker : MarkerRun) :
    (d.cleanMarkerRun keep marker).runTexts marker.run =
      (keptNodes keep (d.runTexts marker.run) marker.sides).map joinKept := by
  have hpruned := d.pruned_cleanMarkerRun keep marker
  apply eq_of_map_fst_eq
  · exact fun entry hentry => (mem_runTexts hentry).2
  · intro entry hentry
    obtain ⟨kept, hkept, rfl⟩ := List.mem_map.1 hentry
    exact (kind_cleanMarkerRun hd keep marker).2 kept hkept
  · have hjoin : ((keptNodes keep (d.runTexts marker.run) marker.sides).map joinKept).map Prod.fst =
        (d.runTexts marker.run).map Prod.fst := by
      rw [List.map_map]
      exact map_fst_keptNodes keep _ _
    rw [hjoin, hpruned.map_fst_runTexts hd fun x hx => by cases hx]

/-- An edit changes the kinds of the nodes in the text of its run, and what it makes of them is
decided by the texts of the run alone. -/
theorem kind_edit {d : Document} (hd : d.WellFormed) (edit : FieldEdit) (x : NodeId) :
    (edit.apply d).kind x =
      (((edit.kept (d.runTexts edit.run)).lookup x).map NodeKind.text).getD (d.kind x) := by
  cases edit with
  | remove run => exact kind_remove d run x
  | clean keep marker =>
    obtain ⟨houtside, hinside⟩ := kind_cleanMarkerRun hd keep marker
    have happly : ((FieldEdit.clean keep marker).apply d).kind x =
        (d.cleanMarkerRun keep marker).kind x := rfl
    rw [happly]
    show _ = ((List.lookup x (FieldEdit.kept (d.runTexts marker.run) (.clean keep marker))).map
      NodeKind.text).getD (d.kind x)
    cases hlookup : (FieldEdit.kept (d.runTexts marker.run) (.clean keep marker)).lookup x with
    | some text =>
      obtain ⟨front, back, hsplit, -⟩ := List.lookup_eq_some_iff.1 hlookup
      have hmem : (x, text) ∈ FieldEdit.kept (d.runTexts marker.run) (.clean keep marker) := by
        rw [hsplit]
        exact List.mem_append_right _ List.mem_cons_self
      obtain ⟨kept, hkept, heq⟩ := List.mem_map.1 hmem
      have hkind := hinside kept hkept
      rw [heq, show kept.1 = x from congrArg Prod.fst heq] at hkind
      exact hkind
    | none =>
      refine houtside x fun hx => ?_
      rw [← map_fst_keptNodes keep _ marker.sides] at hx
      obtain ⟨kept, hkept, rfl⟩ := List.mem_map.1 hx
      have hne := List.lookup_eq_none_iff.1 hlookup _ (List.mem_map_of_mem (f := joinKept) hkept)
      simp [joinKept] at hne

/-! ## Other edits -/

/-- The texts of a run are the same after a change elsewhere. -/
lemma Pruned.runTexts_eq {d d' : Document} {removed cleaned : List NodeId}
    (h : d.Pruned d' removed (d.InTextOf cleaned)) (hd : d.WellFormed) {run : NodeId}
    (hapart : ∀ x, x ∈ removed ∨ x ∈ cleaned → x ≠ run ∧ ¬ d.Below run x ∧ ¬ d.Below x run) :
    d'.runTexts run = d.runTexts run := by
  have hnodes : d'.textNodes run = d.textNodes run :=
    h.textNodes_eq hd fun x hx => (hapart x (.inl hx)).2.1
  show (d'.textNodes run).filterMap _ = (d.textNodes run).filterMap _
  rw [hnodes]
  refine List.filterMap_congr fun id hid => ?_
  have hkind : d'.kind id = d.kind id := by
    refine (h.kind_eq id).resolve_right ?_
    rintro ⟨⟨other, hother, hplace⟩, -⟩
    obtain ⟨hne, hbelow, habove⟩ := hapart other (.inr hother)
    have hrun : d.Below run id := by
      obtain ⟨holder, hholder, hchild⟩ := List.mem_flatMap.1 hid
      exact hd.below_of_inTextOf ⟨run, List.mem_singleton_self run, holder, hholder, hchild⟩
    have hcase := hrun.comparable (hd.below_of_inTextOf ⟨other, List.mem_singleton_self _, hplace⟩)
    rcases hcase with heq | hcase | hcase
    · exact hne heq.symm
    · exact hbelow hcase
    · exact habove hcase
  rw [hkind]

/-- Edits at other runs leave the texts of a run alone, if no run is inside another. -/
lemma runTexts_edits_of_apart {d : Document} (hd : d.WellFormed) {edits : List FieldEdit}
    {run : NodeId} (hapart : ∀ edit ∈ edits,
      edit.run ≠ run ∧ ¬ d.Below run edit.run ∧ ¬ d.Below edit.run run) :
    (edits.foldl FieldEdit.apply d).runTexts run = d.runTexts run := by
  refine (pruned_edits hd edits).runTexts_eq hd fun x hx => ?_
  have hmem : ∃ edit ∈ edits, x ∈ edit.removed ∨ x ∈ edit.cleaned := by
    rcases hx with hx | hx
    · obtain ⟨edit, hedit, hx⟩ := List.mem_flatMap.1 hx
      exact ⟨edit, hedit, .inl hx⟩
    · obtain ⟨edit, hedit, hx⟩ := List.mem_flatMap.1 hx
      exact ⟨edit, hedit, .inr hx⟩
  obtain ⟨edit, hedit, hx⟩ := hmem
  rw [← FieldEdit.run_eq_of_mem hx]
  exact hapart edit hedit

/-- What a sequence of edits leaves of a run that is cleaned in it, where no run is edited twice or
is inside another one. -/
theorem runTexts_edits {d : Document} (hd : d.WellFormed) {edits : List FieldEdit} {keep : Side}
    {marker : MarkerRun} (hmem : .clean keep marker ∈ edits)
    (hnodup : (edits.map FieldEdit.run).Nodup)
    (hapart : ∀ edit ∈ edits, ∀ edit' ∈ edits, ¬ d.Below edit.run edit'.run) :
    (edits.foldl FieldEdit.apply d).runTexts marker.run =
      (keptNodes keep (d.runTexts marker.run) marker.sides).map joinKept := by
  obtain ⟨front, back, rfl⟩ := List.append_of_mem hmem
  have hother : ∀ edit, edit ∈ front ∨ edit ∈ back → edit.run ≠ marker.run ∧
      ¬ d.Below marker.run edit.run ∧ ¬ d.Below edit.run marker.run := by
    intro edit hedit
    have hedits : edit ∈ front ++ .clean keep marker :: back := by
      rw [List.mem_append, List.mem_cons]
      tauto
    refine ⟨fun heq => ?_, hapart _ hmem _ hedits, hapart _ hedits _ hmem⟩
    rw [List.map_append, List.map_cons, List.nodup_append'] at hnodup
    obtain ⟨-, hback, hdisjoint⟩ := hnodup
    rcases hedit with hedit | hedit
    · exact hdisjoint (List.mem_map_of_mem hedit) (heq ▸ List.mem_cons_self)
    · have hagain := List.mem_map_of_mem (f := FieldEdit.run) hedit
      rw [heq] at hagain
      exact (List.nodup_cons.1 hback).1 hagain
  have hfront := pruned_edits hd front
  have hd₁ := hfront.wellFormed hd
  have hclean := pruned_edit hd₁ (.clean keep marker)
  rw [List.foldl_append, List.foldl_cons]
  rw [runTexts_edits_of_apart (hclean.wellFormed hd₁) fun edit hedit => ?_]
  · show ((front.foldl FieldEdit.apply d).cleanMarkerRun keep marker).runTexts marker.run = _
    rw [runTexts_cleanMarkerRun hd₁,
      runTexts_edits_of_apart hd fun edit hedit => hother edit (.inl hedit)]
  · obtain ⟨hne, hbelow, habove⟩ := hother edit (.inr hedit)
    have hparents : ∀ child parent, ((FieldEdit.clean keep marker).apply
        (front.foldl FieldEdit.apply d)).parent child = some parent →
          d.parent child = some parent :=
      fun child parent hparent => hfront.parent_of_parent (hclean.parent_of_parent hparent)
    exact ⟨hne, fun h => hbelow (h.mono hparents), fun h => habove (h.mono hparents)⟩

/-! ## Texts that are in several runs -/

/-- The value of a text node is clipped if the node is in the run that is cleaned, and else it is
as it was. -/
lemma clipped_cleanMarkerRun {d : Document} (hd : d.WellFormed) (keep : Side) (marker : MarkerRun)
    {x : NodeId} {old : String} (hold : d.kind x = .text old) :
    ∃ new, (d.cleanMarkerRun keep marker).kind x = .text new ∧
      (Clipped old.toList new.toList ∨ x ∉ (d.runTexts marker.run).map Prod.fst ∧ new = old) := by
  obtain ⟨houtside, hinside⟩ := kind_cleanMarkerRun hd keep marker
  by_cases hx : x ∈ (d.runTexts marker.run).map Prod.fst
  · rw [← map_fst_keptNodes keep _ marker.sides] at hx
    obtain ⟨kept, hkept, rfl⟩ := List.mem_map.1 hx
    obtain ⟨entry, hentry, hfst, hsublist⟩ := exists_of_mem_keptNodes hkept
    have htext : entry.2 = old := by
      have hkind := (mem_runTexts hentry).2
      rw [← hfst, hold] at hkind
      exact (NodeKind.text.inj hkind).symm
    refine ⟨_, hinside kept hkept, .inl ⟨kept.2, htext ▸ hsublist, ?_⟩⟩
    rw [joinKept, String.toList_ofList]
  · exact ⟨old, (houtside x hx).trans hold, .inr ⟨hx, rfl⟩⟩

lemma clipped_edits {d : Document} (hd : d.WellFormed) (edits : List FieldEdit) {x : NodeId}
    {old : String} (hold : d.kind x = .text old) :
    ∃ new, (edits.foldl FieldEdit.apply d).kind x = .text new ∧
      Relation.ReflTransGen Clipped old.toList new.toList := by
  induction edits generalizing d old with
  | nil => exact ⟨old, hold, .refl⟩
  | cons edit edits ih =>
    have hfirst : ∃ middle, (edit.apply d).kind x = .text middle ∧
        Relation.ReflTransGen Clipped old.toList middle.toList := by
      cases edit with
      | remove run => exact ⟨old, (kind_remove d run x).trans hold, .refl⟩
      | clean keep marker =>
        obtain ⟨middle, hmiddle, hclipped | ⟨-, rfl⟩⟩ := clipped_cleanMarkerRun hd keep marker hold
        · exact ⟨middle, hmiddle, .single hclipped⟩
        · exact ⟨middle, hmiddle, .refl⟩
    obtain ⟨middle, hmiddle, hpath⟩ := hfirst
    obtain ⟨new, hnew, hrest⟩ := ih ((pruned_edit hd edit).wellFormed hd) hmiddle
    exact ⟨new, hnew, hpath.trans hrest⟩

/-- Whatever else is edited, the texts of a run that is cleaned are clipped at least once. -/
theorem transGen_clipped_edits {d : Document} (hd : d.WellFormed) {edits : List FieldEdit}
    {keep : Side} {marker : MarkerRun} (hmem : .clean keep marker ∈ edits) {x : NodeId}
    {new : String} (hnew : (x, new) ∈ (edits.foldl FieldEdit.apply d).runTexts marker.run) :
    ∃ old, (x, old) ∈ d.runTexts marker.run ∧
      Relation.TransGen Clipped old.toList new.toList := by
  obtain ⟨old, hold⟩ := (pruned_edits hd edits).exists_old hd hnew
  refine ⟨old, hold, ?_⟩
  obtain ⟨front, back, rfl⟩ := List.append_of_mem hmem
  rw [List.foldl_append] at hnew
  set d₁ := front.foldl FieldEdit.apply d
  have hd₁ : d₁.WellFormed := (pruned_edits hd front).wellFormed hd
  have hd₂ : (d₁.cleanMarkerRun keep marker).WellFormed :=
    (d₁.pruned_cleanMarkerRun keep marker).wellFormed hd₁
  obtain ⟨first, hfirst, hbefore⟩ := clipped_edits hd front (mem_runTexts hold).2
  obtain ⟨second, hsecond, hcleaned⟩ := clipped_cleanMarkerRun hd₁ keep marker hfirst
  obtain ⟨third, hthird, hafter⟩ := clipped_edits hd₂ back hsecond
  have hplace : x ∈ (d₁.runTexts marker.run).map Prod.fst := by
    obtain ⟨value, hvalue⟩ := (pruned_edits hd₁ (.clean keep marker :: back)).exists_old hd₁ hnew
    exact List.mem_map_of_mem (f := Prod.fst) hvalue
  have hclipped : Clipped first.toList second.toList :=
    hcleaned.resolve_right fun h => h.1 hplace
  have hnew : new = third := by
    have hkind := (mem_runTexts hnew).2
    exact NodeKind.text.inj (hkind.symm.trans hthird)
  rw [hnew]
  exact (Relation.TransGen.tail' hbefore hclipped).trans_left hafter

/-! ## After a pass -/

section

variable {d : Document} {options : Options} {context : DataContext} {field inner : IfSpan}
  {marker : MarkerRun}

/-- No two edits of a pass are at runs of which one is inside the other, if no run is. -/
lemma WellFormed.not_below_ifEdits (hd : d.WellFormed)
    (hflat : ∀ run ∈ d.runs, d.wordDescendants run "r" = []) {edit edit' : FieldEdit}
    (hedit : edit ∈ d.ifEdits context options) (hedit' : edit' ∈ d.ifEdits context options) :
    ¬ d.Below edit.run edit'.run := by
  intro hbelow
  have hinside : edit'.run ∈ d.wordDescendants edit.run "r" :=
    List.mem_filter.2 ⟨hd.mem_descendants.2 hbelow,
      (List.mem_filter.1 (mem_runs_of_mem_ifEdits hedit')).2⟩
  rw [hflat _ (mem_runs_of_mem_ifEdits hedit)] at hinside
  cases hinside

/-- The texts of a run with markers after a pass over a document in which no run is inside
another. -/
lemma runTexts_processIfFields (hd : d.WellFormed)
    (hflat : ∀ run ∈ d.runs, d.wordDescendants run "r" = [])
    (hfield : field ∈ (d.ifSpans options).1) (hinner : inner ∈ field.applied context)
    (hmarker : marker ∈ inner.markerRuns) :
    (d.processIfFields context options).document.runTexts marker.run =
      (keptNodes (inner.side context) (d.runTexts marker.run) marker.sides).map joinKept := by
  rw [processIfFields_document]
  exact runTexts_edits hd (clean_mem_ifEdits hfield hinner hmarker)
    (hd.nodup_ifEdits context options) fun _ hedit _ hedit' =>
      hd.not_below_ifEdits hflat hedit hedit'

/-- The markers that are left in the runs with markers after a pass over the fields of a document.
A text that still has one had some texts between its markers that a marker is across.  Where no run
is inside another it is known which texts they are: those of the side that the field keeps and those
behind its closing marker, and a marker is left if and only if it is across their seams. -/
theorem processIfFields_markers (hd : d.WellFormed) (hfield : field ∈ (d.ifSpans options).1)
    (hinner : inner ∈ field.applied context) (hmarker : marker ∈ inner.markerRuns) :
    let after := (d.processIfFields context options).document
    (∀ x new, (x, new) ∈ after.runTexts marker.run → Marker.occursIn new.toList = true →
      ∃ old kept, (x, old) ∈ d.runTexts marker.run ∧
        kept.Sublist (Piece.texts (Piece.ofText old.toList)) ∧
          ∃ left : Marker, left.Straddles kept) ∧
      ((∀ run ∈ d.runs, d.wordDescendants run "r" = []) →
        let kept := keptNodes (inner.side context) (d.runTexts marker.run) marker.sides
        after.runTexts marker.run = kept.map joinKept ∧
          ∀ entry ∈ kept, Marker.occursIn (joinKept entry).2.toList = true ↔
            ∃ left : Marker, left.Straddles entry.2) := by
  intro after
  constructor
  · intro x new hnew hoccurs
    rw [show after = (d.ifEdits context options).foldl FieldEdit.apply d from
      processIfFields_document d context options] at hnew
    obtain ⟨old, hold, hpath⟩ :=
      transGen_clipped_edits hd (clean_mem_ifEdits hfield hinner hmarker) hnew
    obtain ⟨kept, hsublist, hseam⟩ := Clipped.straddles hpath hoccurs
    exact ⟨old, kept, hold, hsublist, hseam⟩
  · intro hflat kept
    constructor
    · exact runTexts_processIfFields hd hflat hfield hinner hmarker
    · exact fun entry hentry => occursIn_of_mem_keptNodes hentry

end

/-! ## A marker that is left -/

/-- A page with a field whose closing marker stands inside the letters of another one. -/
def interruptedPage : Document :=
  ofForest [Tree.page [[.field ⟨"a", "=", "1"⟩,
    .run [.text "%e".toList, .marker .endMarker, .text "nd%".toList]]]]

def interruptedSpan : IfSpan where
  condition := ⟨"a", "=", "1"⟩
  first := 0
  codeRuns := [4, 6, 9, 11, 14]
  ifTrue := [.fragment "%e"]
  ifFalse := []
  markerRuns := [⟨16, [.ifTrue, .outside]⟩]
  next := 6

lemma wellFormed_interruptedPage : interruptedPage.WellFormed :=
  (displays_ofForest _).wellFormed

/-- Whether a field is the one of the page, part by part.  Fields as such cannot be compared. -/
def isInterruptedSpan : IfSpan → Bool
  | ⟨condition, first, codeRuns, [.fragment text], [], markerRuns, next⟩ =>
    condition = interruptedSpan.condition ∧ first = interruptedSpan.first ∧
      codeRuns = interruptedSpan.codeRuns ∧ text = "%e" ∧
      markerRuns = interruptedSpan.markerRuns ∧ next = interruptedSpan.next
  | _ => false

lemma eq_interruptedSpan {field : IfSpan} (h : isInterruptedSpan field = true) :
    field = interruptedSpan := by
  unfold isInterruptedSpan at h
  split at h
  next =>
    obtain ⟨rfl, rfl, rfl, rfl, rfl, rfl⟩ := of_decide_eq_true h
    rfl
  next => cases h

lemma ifSpans_interruptedPage : (interruptedPage.ifSpans {}).1 = [interruptedSpan] := by
  have hspans : (interruptedPage.ifSpans {}).1.map isInterruptedSpan = [true] := by
    decide +kernel
  obtain ⟨field, hspans, hfield⟩ := List.map_eq_singleton_iff.1 hspans
  rw [hspans, eq_interruptedSpan hfield]

lemma interruptedSpan_mem : interruptedSpan ∈ (interruptedPage.ifSpans {}).1 := by
  rw [ifSpans_interruptedPage]
  exact List.mem_cons_self

lemma interruptedSpan_mem_applied (context : DataContext) :
    interruptedSpan ∈ interruptedSpan.applied context := by
  rw [IfSpan.applied_eq]
  exact List.mem_cons_self

lemma mem_markerRuns_interruptedSpan :
    (⟨16, [.ifTrue, .outside]⟩ : MarkerRun) ∈ interruptedSpan.markerRuns :=
  List.mem_cons_self

lemma runTexts_interruptedPage : interruptedPage.runTexts 16 = [(18, "%e%end%nd%")] := by
  decide +kernel

lemma flat_interruptedPage :
    ∀ run ∈ interruptedPage.runs, interruptedPage.wordDescendants run "r" = [] := by
  have hall : interruptedPage.runs.all
      (fun run => interruptedPage.wordDescendants run "r" == []) = true := by
    decide +kernel
  intro run hrun
  exact eq_of_beq (List.all_eq_true.1 hall run hrun)

/-- Two kept texts of a run, and an `%end%` across their seam. -/
theorem processIfFields_markers_interrupted :
    let context : DataContext := ⟨.object [("a", .string "1")]⟩
    interruptedPage.WellFormed ∧ (interruptedPage.ifSpans {}).1 = [interruptedSpan] ∧
      interruptedSpan ∈ interruptedSpan.applied context ∧
      (∀ run ∈ interruptedPage.runs, interruptedPage.wordDescendants run "r" = []) ∧
      (interruptedPage.processIfFields context {}).document.runTexts 16 = [(18, "%end%")] ∧
      ∃ left : Marker, left.Straddles ["%e".toList, "nd%".toList] := by
  intro context
  have hkept : keptNodes (interruptedSpan.side context) [(18, "%e%end%nd%")]
      [.ifTrue, .outside] = [(18, ["%e".toList, "nd%".toList])] := by
    decide
  obtain ⟨htexts, hseams⟩ := (processIfFields_markers wellFormed_interruptedPage
    interruptedSpan_mem (interruptedSpan_mem_applied context)
    mem_markerRuns_interruptedSpan).2 flat_interruptedPage
  simp only [runTexts_interruptedPage, hkept] at htexts hseams
  refine ⟨wellFormed_interruptedPage, ifSpans_interruptedPage, interruptedSpan_mem_applied context,
    flat_interruptedPage, htexts, ?_⟩
  exact (hseams _ List.mem_cons_self).1 (by decide)

/-- Markers are not always gone after a pass. -/
theorem not_processIfFields_markers_absent :
    let context : DataContext := ⟨.object [("a", .string "1")]⟩
    ¬ ∀ field ∈ (interruptedPage.ifSpans {}).1, ∀ inner ∈ field.applied context,
      ∀ marker ∈ inner.markerRuns,
        ∀ entry ∈ (interruptedPage.processIfFields context {}).document.runTexts marker.run,
          Marker.occursIn entry.2.toList = false := by
  intro context habsent
  have htexts := runTexts_processIfFields wellFormed_interruptedPage flat_interruptedPage
    interruptedSpan_mem (interruptedSpan_mem_applied context) mem_markerRuns_interruptedSpan
  have hkept : (keptNodes (interruptedSpan.side context) [(18, "%e%end%nd%")]
      [.ifTrue, .outside]).map joinKept = [(18, "%end%")] := by
    decide
  rw [runTexts_interruptedPage, hkept] at htexts
  have hfree := habsent _ interruptedSpan_mem _ (interruptedSpan_mem_applied context) _
    mem_markerRuns_interruptedSpan (18, "%end%") (htexts ▸ List.mem_cons_self)
  exact absurd hfree (by decide)

end Document

end WordFields
