import WordFields.Field.Pruning
import WordFields.Proofs.Word.Sheet

/-!
# Edits of a sheet

Taking runs out of a sheet and replacing the text of a run gives a sheet again.  Its rows are those
of the old one with these runs taken out or with this text replaced, and nothing else is different.
-/

namespace WordFields

/-- A row with the text of one of its runs replaced. -/
def Row.setText (run : NodeId) (text : String) (row : Row) : Row :=
  row.map fun entry => if entry.1 = run then (run, .text text) else entry

/-- A row without some of its runs. -/
def Row.without (ids : List NodeId) (row : Row) : Row :=
  row.filter fun entry => entry.1 ∉ ids

namespace Row

lemma map_fst_setText (run : NodeId) (text : String) (row : Row) :
    (row.setText run text).map Prod.fst = row.map Prod.fst := by
  rw [setText, List.map_map]
  refine List.map_congr_left fun entry _ => ?_
  show (if entry.1 = run then (run, RunContent.text text) else entry).1 = entry.1
  split
  next heq => exact heq.symm
  next => rfl

lemma setText_of_not_mem {run : NodeId} {text : String} {row : Row} (h : run ∉ row.map Prod.fst) :
    row.setText run text = row := by
  have hsame : ∀ entry ∈ row,
      (if entry.1 = run then (run, RunContent.text text) else entry) = entry := by
    intro entry hentry
    refine if_neg fun heq => h ?_
    exact heq ▸ List.mem_map_of_mem hentry
  rw [setText, List.map_congr_left hsame, List.map_id']

/-- The text of a run in the middle of a row is replaced there. -/
lemma setText_middle {before after : Row} {run : NodeId} {content : RunContent} (text : String)
    (hnodup : ((before ++ (run, content) :: after).map Prod.fst).Nodup) :
    (before ++ (run, content) :: after).setText run text =
      before ++ (run, .text text) :: after := by
  rw [List.map_append, List.map_cons, List.nodup_middle, List.nodup_cons, List.mem_append,
    not_or] at hnodup
  obtain ⟨⟨hbefore, hafter⟩, -⟩ := hnodup
  have hsplit : (before ++ (run, content) :: after).setText run text =
      before.setText run text ++ (run, .text text) :: after.setText run text := by
    simp [setText]
  rw [hsplit, setText_of_not_mem hbefore, setText_of_not_mem hafter]

lemma without_of_disjoint {ids : List NodeId} {row : Row}
    (h : ∀ id ∈ row.map Prod.fst, id ∉ ids) : row.without ids = row :=
  List.filter_eq_self.2 fun _ hentry => decide_eq_true (h _ (List.mem_map_of_mem hentry))

/-- Runs in the middle of a row are taken out there. -/
lemma without_middle {before middle after : Row} {ids : List NodeId}
    (hids : ∀ id, id ∈ ids ↔ id ∈ middle.map Prod.fst)
    (hnodup : ((before ++ (middle ++ after)).map Prod.fst).Nodup) :
    (before ++ (middle ++ after)).without ids = before ++ after := by
  rw [List.map_append, List.map_append, List.nodup_append, List.nodup_append] at hnodup
  obtain ⟨-, ⟨-, -, hafter⟩, hbefore⟩ := hnodup
  have hkeepBefore : before.without ids = before := without_of_disjoint fun id hid hmem =>
    hbefore id hid id (List.mem_append_left _ ((hids id).1 hmem)) rfl
  have hkeepAfter : after.without ids = after := without_of_disjoint fun id hid hmem =>
    hafter id ((hids id).1 hmem) id hid rfl
  have hdrop : middle.without ids = [] := List.filter_eq_nil_iff.2 fun entry hentry => by
    simpa using (hids entry.1).2 (List.mem_map_of_mem hentry)
  have hsplit : (before ++ (middle ++ after)).without ids =
      before.without ids ++ (middle.without ids ++ after.without ids) := by
    simp [without]
  rw [hsplit, hkeepBefore, hkeepAfter, hdrop, List.nil_append]

end Row

namespace Document

variable {d d' : Document} {rows : List Row}

namespace Sheet

/-- An edit below the paragraphs: each list of children loses the nodes that are not kept, only
runs are lost, and only text nodes change. -/
lemma edit (h : d.Sheet rows) (hd' : d'.WellFormed) (keep : NodeId → Bool) (change : Row → Row)
    (hkeep : ∀ x, d.isWord x "r" = false → keep x = true)
    (hkind : ∀ x, (∀ value, d.kind x ≠ .text value) → d'.kind x = d.kind x)
    (hchildren : ∀ x, d'.children x = (d.children x).filter keep)
    (hrow : ∀ row ∈ rows, (change row).map Prod.fst = (row.map Prod.fst).filter keep)
    (hshows : ∀ row ∈ rows, ∀ entry ∈ change row, d'.Shows entry.1 entry.2.tree) :
    d'.Sheet (rows.map change) := by
  obtain ⟨hd, top, body, paragraphs, hframe, rfl, hparagraphs⟩ := h
  obtain ⟨attributes, hkindTop⟩ := hframe.kind_top
  have helement : ∀ {x : NodeId} {element : Element}, d.kind x = .element element →
      d'.kind x = .element element := by
    intro x element hx
    rw [← hx]
    refine hkind x fun value heq => ?_
    rw [hx] at heq
    cases heq
  have hkeepElement : ∀ {x : NodeId} {name : String} {attributes : List Attribute},
      d.kind x = .element (.word name attributes) → name ≠ "r" → keep x = true := by
    intro x name attributes hx hne
    refine hkeep x ?_
    rw [isWord_of_kind hx, beq_eq_false_iff_ne]
    exact hne
  have hroot : d'.kind root = .document := by
    rw [← hframe.kind_root]
    refine hkind root fun value heq => ?_
    rw [hframe.kind_root] at heq
    cases heq
  have htop : keep top = true := hkeepElement hkindTop (by decide)
  have hbody : keep body = true := hkeepElement hframe.kind_body (by decide)
  have hkept : (paragraphs.map Prod.fst).filter keep = paragraphs.map Prod.fst := by
    rw [List.filter_eq_self]
    intro x hx
    obtain ⟨paragraph, hmem, rfl⟩ := List.mem_map.1 hx
    exact hkeepElement (hparagraphs paragraph hmem).kind_eq (by decide)
  let paragraphs' := paragraphs.map fun paragraph => (paragraph.1, change paragraph.2)
  have hfst : paragraphs'.map Prod.fst = paragraphs.map Prod.fst := by
    simp [paragraphs']
  refine ⟨hd', top, body, paragraphs', ?_, by simp [paragraphs'], ?_⟩
  · refine ⟨hroot, ?_, ⟨attributes, helement hkindTop⟩, ?_, helement hframe.kind_body, ?_⟩
    · rw [hchildren, hframe.children_root]
      simp [htop]
    · rw [hchildren, hframe.children_top]
      simp [hbody]
    · rw [hchildren, hframe.children_body, hkept, hfst]
  · intro paragraph hmem
    obtain ⟨⟨id, row⟩, hold, rfl⟩ := List.mem_map.1 hmem
    have hparagraph := hparagraphs _ hold
    have hrowMem : row ∈ paragraphs.map Prod.snd := List.mem_map_of_mem hold
    refine ⟨helement hparagraph.kind_eq, ?_, hshows row hrowMem⟩
    rw [hchildren, hparagraph.children_eq, hrow row hrowMem]

/-- No run is below another. -/
lemma not_below (h : d.Sheet rows) {entry : NodeId × RunContent} (hentry : entry ∈ rows.flatten)
    {id : NodeId} (hid : d.isWord id "r" = true) : ¬ d.Below entry.1 id := by
  intro hbelow
  have hmem : id ∈ d.wordDescendants entry.1 "r" :=
    List.mem_filter.2 ⟨(h.wellFormed.mem_descendants).2 hbelow, hid⟩
  rw [(h.shows hentry).inner_runs_eq_nil h.wellFormed] at hmem
  cases hmem

/-! ## Taking runs out -/

theorem remove (h : d.Sheet rows) {id : NodeId} (hid : d.isWord id "r" = true) :
    (d.remove id).Sheet (rows.map (Row.without [id])) := by
  have hd := h.wellFormed
  refine h.edit (hd.remove id) (· ≠ id) _ ?_ ?_ (hd.children_remove id) ?_ ?_
  · intro x hx
    refine decide_eq_true ?_
    rintro rfl
    rw [hid] at hx
    cases hx
  · intro x _
    exact kind_remove d id x
  · intro row _
    rw [Row.without, List.filter_map]
    simp [Function.comp_def]
  · intro row hrow entry hentry
    have hmem : entry ∈ rows.flatten :=
      List.mem_flatten.2 ⟨row, hrow, List.mem_of_mem_filter hentry⟩
    refine (h.shows hmem).congr hd (fun x _ => kind_remove d id x) fun x hx => ?_
    rw [hd.children_remove, List.filter_eq_self]
    intro child hchild
    refine decide_eq_true ?_
    rintro rfl
    have hparent := below_of_parent (hd.parent_of_mem hchild)
    rcases hx with rfl | hx
    · exact h.not_below hmem hid hparent
    · exact h.not_below hmem hid (hx.trans hparent)

/-- Taking runs out one after the other, in any order. -/
theorem removeAll (h : d.Sheet rows) {ids : List NodeId}
    (hids : ∀ id ∈ ids, d.isWord id "r" = true) :
    (d.removeAll ids).Sheet (rows.map (Row.without ids)) := by
  induction ids generalizing d rows with
  | nil =>
    have hsame : Row.without [] = id := by
      funext row
      simp [Row.without]
    rw [hsame, List.map_id]
    exact h
  | cons id ids ih =>
    obtain ⟨hid, hrest⟩ := List.forall_mem_cons.1 hids
    have hkind : ∀ x name, (d.remove id).isWord x name = d.isWord x name := by
      intro x name
      simp [isWord, isElementIn, element?]
    have hnext := ih (h.remove hid) fun x hx => (hkind x "r").trans (hrest x hx)
    have hrows : (rows.map (Row.without [id])).map (Row.without ids) =
        rows.map (Row.without (id :: ids)) := by
      rw [List.map_map]
      refine List.map_congr_left fun row _ => ?_
      simp only [Function.comp_def, Row.without, List.filter_filter]
      refine List.filter_congr fun entry _ => ?_
      simp [Bool.and_comm]
    rw [hrows] at hnext
    exact hnext

/-! ## Replacing texts -/

/-- The text node of a run is in no other run. -/
lemma eq_of_below_leaf (h : d.Sheet rows) {run holder leaf : NodeId} {localName old : String}
    (hrun : d.CharacterRun run localName old holder leaf) (hne : localName ≠ "r")
    {entry : NodeId × RunContent} (hentry : entry ∈ rows.flatten)
    (hleaf : leaf = entry.1 ∨ d.Below entry.1 leaf) : entry.1 = run := by
  have hd := h.wellFormed
  have hkind : d.kind entry.1 = .element (.word "r" []) := (h.shows hentry).kind_run
  have hparentLeaf : d.parent leaf = some holder :=
    hd.parent_of_mem (by simp [hrun.children_holder])
  have hparentHolder : d.parent holder = some run := hrun.parent_holder hd
  have hrunWord : d.isWord run "r" = true := isWord_of_kind hrun.kind_run "r"
  rcases hleaf with rfl | hbelow
  · rw [hrun.kind_leaf] at hkind
    cases hkind
  rcases hbelow.of_parent hparentLeaf with heq | hbelow
  · rw [heq, hrun.kind_holder] at hkind
    simp only [Element.word, NodeKind.element.injEq, Element.mk.injEq,
      QualifiedName.mk.injEq] at hkind
    exact absurd hkind.1.2 hne
  rcases hbelow.of_parent hparentHolder with heq | hbelow
  · exact heq
  · exact absurd hbelow (h.not_below hentry hrunWord)

/-- Replacing the text node of a run changes the text of that run and nothing else. -/
theorem setValue (h : d.Sheet rows) {run holder leaf : NodeId} {old : String}
    (hrun : d.CharacterRun run "t" old holder leaf) (new : String) :
    (d.setValue leaf new).2.Sheet (rows.map (Row.setText run new)) := by
  have hd := h.wellFormed
  have hkind := kind_setValue_text new hrun.kind_leaf
  have hother : ∀ x, (∀ value, d.kind x ≠ .text value) →
      (d.setValue leaf new).2.kind x = d.kind x := by
    intro x hx
    rw [hkind]
    refine if_neg ?_
    rintro rfl
    exact hx old hrun.kind_leaf
  have hshowsRun : (d.setValue leaf new).2.Shows run (RunContent.text new).tree := by
    have hkindRun : (d.setValue leaf new).2.kind run = .element (.word "r" []) := by
      rw [← hrun.kind_run]
      exact hother run fun value heq => by rw [hrun.kind_run] at heq; cases heq
    have hkindHolder : (d.setValue leaf new).2.kind holder = .element (.word "t" []) := by
      rw [← hrun.kind_holder]
      exact hother holder fun value heq => by rw [hrun.kind_holder] at heq; cases heq
    have hkindLeaf : (d.setValue leaf new).2.kind leaf = .text new := by
      rw [hkind, if_pos rfl]
    have hleaf : (d.setValue leaf new).2.Shows leaf (.node (.text new) []) :=
      .intro hkindLeaf (by rw [children_setValue, hrun.children_leaf]; exact .nil)
    have hholder : (d.setValue leaf new).2.Shows holder (.word "t" [] [.node (.text new) []]) :=
      .intro hkindHolder (by rw [children_setValue, hrun.children_holder]; exact .cons hleaf .nil)
    exact .intro hkindRun (by rw [children_setValue, hrun.children_run]; exact .cons hholder .nil)
  refine h.edit (hd.setValue leaf new) (fun _ => true) _ (fun _ _ => rfl) hother ?_ ?_ ?_
  · intro x
    simp
  · intro row _
    rw [Row.map_fst_setText]
    simp
  · intro row hrow entry hmem
    obtain ⟨old', hold, rfl⟩ := List.mem_map.1 hmem
    split
    next => exact hshowsRun
    next hne =>
      have hflatten : old' ∈ rows.flatten := List.mem_flatten.2 ⟨row, hrow, hold⟩
      refine (h.shows hflatten).congr hd (fun x hx => ?_) fun x _ => children_setValue d leaf x new
      rw [hkind]
      refine if_neg ?_
      rintro rfl
      exact hne (h.eq_of_below_leaf hrun (by decide) hflatten hx)

end Sheet

end Document

end WordFields
