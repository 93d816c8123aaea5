import WordFields.Field.Pruning
import WordFields.Proofs.Field.Extraction
import WordFields.Proofs.Word.SheetEdit

/-!
# Pruning evaluates templates

A page with a run for each piece of a template, in one paragraph, is pruned to the texts that the
template evaluates to.  The proof follows the row of the paragraph through every edit: applying the
entries of a placed template changes the part of the row in which the template stands to
`Placed.pruned` and leaves the row on both sides as it is (`Placed.sheet_applyNested`).
-/

namespace WordFields

open Document

/-! ## Edits in the middle of a row -/

namespace Document.Sheet

variable {d : Document} {before middle after : Row}

lemma nodup_row {row : Row} (h : d.Sheet [row]) : (row.map Prod.fst).Nodup := by
  simpa using h.nodup_runs

/-- Taking out all runs of a part of the row. -/
lemma removeAll_middle (h : d.Sheet [before ++ (middle ++ after)]) {ids : List NodeId}
    (hids : ∀ id, id ∈ ids ↔ id ∈ middle.map Prod.fst) :
    (d.removeAll ids).Sheet [before ++ after] := by
  have hword : ∀ id ∈ ids, d.isWord id "r" = true := by
    intro id hid
    obtain ⟨entry, hentry, rfl⟩ := List.mem_map.1 ((hids id).1 hid)
    have hmem : entry ∈ [before ++ (middle ++ after)].flatten := by simp [hentry]
    exact isWord_of_kind (h.shows hmem).kind_run "r"
  have hremoved := h.removeAll hword
  rwa [List.map_singleton, Row.without_middle hids h.nodup_row] at hremoved

/-- Of a run that holds just a marker nothing is kept. -/
lemma cleanMarkerRun_middle {run : NodeId} {marker : Marker}
    (h : d.Sheet [before ++ (run, .text marker.text) :: after]) (keep : Side) (sides : List Side) :
    (d.cleanMarkerRun keep ⟨run, sides⟩).Sheet [before ++ (run, .text "") :: after] := by
  have hmem : (run, RunContent.text marker.text) ∈
      [before ++ (run, .text marker.text) :: after].flatten := by simp
  obtain ⟨holder, leaf, hrun⟩ := Shows.characterRun (h.shows hmem)
  have htexts : d.runTexts run = [(leaf, marker.text)] := hrun.runTexts_run h.wellFormed
  have hclean : d.cleanMarkerRun keep ⟨run, sides⟩ = (d.setValue leaf "").2 := by
    simp [cleanMarkerRun, htexts, replaceTexts, Marker.text, Piece.ofText_marker, keepPieces]
  have hset := h.setValue hrun ""
  rw [List.map_singleton, Row.setText_middle "" h.nodup_row] at hset
  rw [hclean]
  exact hset

end Document.Sheet

/-! ## The texts of a row -/

namespace Row

/-- The texts of a row that are neither empty nor the shown result of a field. -/
def contentTexts (row : Row) : List String :=
  ((row.filterMap fun entry => entry.2.text?).filter fun text => !text.isEmpty).filter
    fun text => text ≠ shownResult

lemma contentTexts_append (row row' : Row) :
    Row.contentTexts (row ++ row') = row.contentTexts ++ row'.contentTexts := by
  simp [contentTexts]

lemma contentTexts_text {text : String} (h : ContentText text) (run : NodeId) (row : Row) :
    Row.contentTexts ((run, .text text) :: row) = text :: row.contentTexts := by
  have hempty : text.isEmpty = false := by
    rw [← Bool.not_eq_true, String.isEmpty_iff]
    exact h.ne_empty
  have hshown : text ≠ shownResult := by
    rintro rfl
    exact h.not_shown (by decide)
  simp [contentTexts, RunContent.text?, hempty, hshown]

lemma contentTexts_empty (run : NodeId) (row : Row) :
    Row.contentTexts ((run, .text "") :: row) = row.contentTexts := by
  simp [contentTexts, RunContent.text?]

lemma contentTexts_code (code : FieldRuns) (condition : Condition) :
    Row.contentTexts (code.row condition) = [] := by
  simp [contentTexts, FieldRuns.row, RunContent.text?]

end Row

/-! ## Applying placed templates -/

namespace Placed

/-- The runs of a placed template that are left when its fields are applied. -/
def pruned (context : DataContext) : Placed → Row
  | nil => []
  | text run content rest => (run, .text content) :: rest.pruned context
  | field condition code ifTrue elseRun ifFalse endRun rest =>
    code.row condition ++
      ((if condition.holds context then ifTrue.pruned context ++ [(elseRun, .text "")]
        else (elseRun, .text "") :: ifFalse.pruned context) ++
        (endRun, .text "") :: rest.pruned context)

lemma mem_entriesRuns_entries (placed : Placed) (index : Nat) (id : NodeId) :
    id ∈ entriesRuns (placed.entries index) ↔ id ∈ placed.runs := by
  induction placed generalizing index with
  | nil => simp [entries, entriesRuns]
  | text run content rest ih => simp [entries, entriesRuns, BranchEntry.runs, ih]
  | field condition code ifTrue elseRun ifFalse endRun rest ihTrue ihFalse ihRest =>
    simp [entries, entriesRuns, BranchEntry.runs, IfSpan.runs, ihTrue, ihFalse, ihRest]
    tauto

/-- What applying the entries of a placed template does to the row in which it stands. -/
def Prunes (context : DataContext) (placed : Placed) : Prop :=
  ∀ {d : Document} {index : Nat} {before after : Row},
    d.Sheet [before ++ (placed.row ++ after)] →
      (applyNested context d (placed.entries index)).Sheet
        [before ++ (placed.pruned context ++ after)]

section

variable {d : Document} {context : DataContext}

/-- Applying a placed field keeps the branch that its condition selects, pruned in its turn. -/
lemma sheet_applyIf {index : Nat} {condition : Condition} {code : FieldRuns}
    {ifTrue ifFalse : Placed} {elseRun endRun : NodeId} {before after : Row}
    (htrue : ifTrue.Prunes context) (hfalse : ifFalse.Prunes context)
    (h : d.Sheet [before ++ (code.row condition ++ (ifTrue.row ++
      (elseRun, .text Marker.elseMarker.text) ::
        (ifFalse.row ++ (endRun, .text Marker.endMarker.text) :: after)))]) :
    (applyIf context d (span index condition code ifTrue elseRun ifFalse endRun)).Sheet
      [before ++ (code.row condition ++
        ((if condition.holds context then ifTrue.pruned context ++ [(elseRun, .text "")]
          else (elseRun, .text "") :: ifFalse.pruned context) ++ (endRun, .text "") :: after))] := by
  rw [span, applyIf]
  by_cases hholds : condition.holds context = true
  · simp only [hholds, if_true, List.foldl_cons, List.foldl_nil]
    have hstart : d.Sheet [(before ++ code.row condition ++ ifTrue.row ++
        [(elseRun, .text Marker.elseMarker.text)]) ++
          (ifFalse.row ++ (endRun, .text Marker.endMarker.text) :: after)] := by
      simpa using h
    have hremoved := hstart.removeAll_middle (mem_entriesRuns_entries ifFalse
      (index + 5 + ifTrue.runs.length + 1))
    have hbranch := @htrue _ (index + 5) (before ++ code.row condition)
      ((elseRun, .text Marker.elseMarker.text) ::
        (endRun, .text Marker.endMarker.text) :: after) (by simpa using hremoved)
    rw [← List.append_assoc] at hbranch
    have helse := hbranch.cleanMarkerRun_middle .ifTrue [.ifTrue, .ifFalse]
    rw [List.append_cons] at helse
    have hend := helse.cleanMarkerRun_middle .ifTrue [.ifFalse, .outside]
    simpa using hend
  · simp only [hholds, Bool.false_eq_true, if_false, List.foldl_cons, List.foldl_nil]
    have hstart : d.Sheet [(before ++ code.row condition) ++ (ifTrue.row ++
        ((elseRun, .text Marker.elseMarker.text) ::
          (ifFalse.row ++ (endRun, .text Marker.endMarker.text) :: after)))] := by
      simpa using h
    have hremoved := hstart.removeAll_middle (mem_entriesRuns_entries ifTrue (index + 5))
    have hbranch := @hfalse _ (index + 5 + ifTrue.runs.length + 1)
      (before ++ code.row condition ++ [(elseRun, .text Marker.elseMarker.text)])
      ((endRun, .text Marker.endMarker.text) :: after) (by simpa using hremoved)
    rw [List.append_assoc, List.singleton_append] at hbranch
    have helse := hbranch.cleanMarkerRun_middle .ifFalse [.ifTrue, .ifFalse]
    rw [List.append_cons, ← List.append_assoc] at helse
    have hend := helse.cleanMarkerRun_middle .ifFalse [.ifFalse, .outside]
    simpa using hend

theorem prunes (placed : Placed) : placed.Prunes context := by
  induction placed with
  | nil =>
    intro d index before after h
    exact h
  | text run content rest ih =>
    intro d index before after h
    have hrest : d.Sheet [(before ++ [(run, .text content)]) ++ (rest.row ++ after)] := by
      simpa [row] using h
    have happlied := @ih d (index + 1) _ _ hrest
    simpa [entries, applyNested, applyEntry, pruned] using happlied
  | field condition code ifTrue elseRun ifFalse endRun rest ihTrue ihFalse ihRest =>
    intro d index before after h
    have hfield : d.Sheet [before ++ (code.row condition ++ (ifTrue.row ++
        (elseRun, .text Marker.elseMarker.text) ::
          (ifFalse.row ++ (endRun, .text Marker.endMarker.text) :: (rest.row ++ after))))] := by
      simpa [row] using h
    have happlied := @sheet_applyIf _ _ index _ _ _ _ _ _ _ _ ihTrue ihFalse hfield
    have hrest := @ihRest _ (span index condition code ifTrue elseRun ifFalse endRun).next
      (before ++ (code.row condition ++
        ((if condition.holds context then ifTrue.pruned context ++ [(elseRun, .text "")]
          else (elseRun, .text "") :: ifFalse.pruned context) ++ [(endRun, .text "")])))
      after (by simpa using happlied)
    simpa [entries, applyNested, applyEntry, pruned, span] using hrest

/-- Applying the entries is applying the fields among them. -/
lemma applyNested_entries (placed : Placed) (d : Document) (index : Nat) :
    applyNested context d (placed.entries index) =
      (placed.spans index).foldl (applyIf context) d := by
  induction placed generalizing d index with
  | nil => simp [entries, spans, applyNested]
  | text run content rest ih => simp [entries, spans, applyNested, applyEntry, ih]
  | field condition code ifTrue elseRun ifFalse endRun rest _ _ ihRest =>
    simp only [entries, spans, applyNested, applyEntry, List.foldl_cons, ihRest]
    rfl

/-! ## What is left -/

/-- The texts of a pruned row, the shown results aside, are what the template evaluates to. -/
lemma contentTexts_pruned {placed : Placed} (hover : placed.template.Over ContentText) :
    (placed.pruned context).contentTexts = placed.template.evaluate context := by
  induction placed with
  | nil => rfl
  | text run content rest ih =>
    rw [pruned, Row.contentTexts_text hover.1, ih hover.2]
    rfl
  | field condition code ifTrue elseRun ifFalse endRun rest ihTrue ihFalse ihRest =>
    obtain ⟨-, hoverTrue, hoverFalse, hoverRest⟩ := hover
    rw [pruned, template, Template.evaluate, Row.contentTexts_append, Row.contentTexts_code,
      List.nil_append, Row.contentTexts_append, Row.contentTexts_empty, ihRest hoverRest]
    by_cases hholds : condition.holds context = true
    · simp only [hholds, if_true]
      rw [Row.contentTexts_append, Row.contentTexts_empty, ihTrue hoverTrue]
      simp [Row.contentTexts]
    · simp only [hholds, Bool.false_eq_true, if_false]
      rw [Row.contentTexts_empty, ihFalse hoverFalse]

end

end Placed

namespace Document

/-- Pruning a page evaluates the template that it shows. -/
theorem processIfFields_page {d : Document} {template : Template}
    (h : d.Displays [Tree.page [template.cells]]) (hover : template.Over ContentText)
    (context : DataContext) :
    (d.processIfFields context {}).count = template.fields.length ∧
      (d.processIfFields context {}).diagnostics = [] ∧
      (d.processIfFields context {}).document.textRuns.filter (fun text => text ≠ shownResult) =
        template.evaluate context := by
  obtain ⟨rows, placed, hsheet, rfl, hstands, hrow, hlength⟩ :=
    h.exists_placed List.flatten_singleton
  obtain ⟨row, rfl⟩ := List.length_eq_one_iff.1 hlength
  rw [List.flatten_singleton] at hrow
  subst hrow
  have hspans : d.ifSpans {} = (placed.spans 0, []) :=
    Placed.ifSpans_eq hsheet rfl hover hstands List.flatten_singleton
  have hcount : (placed.spans 0).length = placed.template.fields.length := by
    rw [← placed.describe_spans 0, List.length_map]
  have hstart : d.Sheet [[] ++ (placed.row ++ [])] := by
    rwa [List.nil_append, List.append_nil]
  have hpruned := @Placed.prunes context placed d 0 [] [] hstart
  rw [Placed.applyNested_entries, List.nil_append, List.append_nil] at hpruned
  have htexts : ((placed.spans 0).foldl (applyIf context) d).textRuns.filter
      (fun text => text ≠ shownResult) = placed.template.evaluate context := by
    rw [hpruned.textRuns_eq, List.flatten_singleton]
    exact Placed.contentTexts_pruned hover
  simp only [processIfFields, hspans]
  exact ⟨hcount, trivial, htexts⟩

/-- Of two fields, one inside the other, the outer one keeps its true branch and the inner one its
false branch. -/
theorem processIfFields_page_nested :
    let template : Template :=
      .text "u" (.field ⟨"a", "=", "1"⟩
        (.text "v" (.field ⟨"b", "<>", "2"⟩ (.text "w" .nil) (.text "x" .nil) .nil))
        (.text "y" .nil) (.text "z" .nil))
    let context : DataContext := ⟨.object [("a", .string "1"), ("b", .number (.integer 2))]⟩
    let d := ofForest [Tree.page [template.cells]]
    (d.processIfFields context {}).count = 1 ∧
      (d.processIfFields context {}).document.textRuns.filter (fun text => text ≠ shownResult) =
        ["u", "v", "x", "z"] := by
  intro template context d
  have hplain : template.Over PlainText := by decide
  have hover : template.Over ContentText := hplain.imp fun _ => PlainText.contentText
  have hevaluate : template.evaluate context = ["u", "v", "x", "z"] := by decide
  have hfields : template.fields.length = 1 := rfl
  have hpage := processIfFields_page (displays_ofForest _) hover context
  constructor
  · exact hpage.1.trans hfields
  · exact hpage.2.2.trans hevaluate

end Document

end WordFields
