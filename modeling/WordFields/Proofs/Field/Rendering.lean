import WordFields.Proofs.Field.Reading
import WordFields.Proofs.Field.Template
import WordFields.Proofs.Word.Sheet

/-!
# Cells in a document

A cell is written as runs: a field as the five runs of its code, a run of pieces as one run with
one text.  A *page* is a document whose paragraphs are lists of cells.  `Laid` finds the cells of a
page again among the runs of its rows, and the code of a field that is together in one paragraph is
read as the header of that field (`Sheet.readHeader_code`).
-/

namespace WordFields

/-- The contents of the runs of a cell. -/
def Cell.contents : Cell → List RunContent
  | .field condition =>
    [.mark .beginning, .instruction condition.instruction, .mark .separator, .text shownResult,
      .mark .ending]
  | .run pieces => [.text (String.ofList (pieces.flatMap Piece.spelling))]

/-- The tree of a document whose paragraphs have the given cells. -/
def Tree.page (paragraphs : List (List Cell)) : Tree :=
  .sheet (paragraphs.map fun cells => cells.flatMap Cell.contents)

/-- The runs of the code of a field. -/
structure FieldRuns where
  beginning : NodeId
  instruction : NodeId
  separator : NodeId
  result : NodeId
  ending : NodeId

namespace FieldRuns

/-- The code of a field as a part of a row. -/
def row (code : FieldRuns) (condition : Condition) : Row :=
  [(code.beginning, .mark .beginning), (code.instruction, .instruction condition.instruction),
    (code.separator, .mark .separator), (code.result, .text shownResult),
    (code.ending, .mark .ending)]

def runs (code : FieldRuns) : List NodeId :=
  [code.beginning, code.instruction, code.separator, code.result, code.ending]

lemma map_row (code : FieldRuns) (condition : Condition) :
    (code.row condition).map Prod.fst = code.runs :=
  rfl

/-- Runs with the contents of a field are the code of that field. -/
lemma exists_of_contents {row : Row} {condition : Condition}
    (h : row.map Prod.snd = (Cell.field condition).contents) :
    ∃ code : FieldRuns, row = code.row condition := by
  simp only [Cell.contents, List.map_eq_cons_iff, List.map_eq_nil_iff] at h
  obtain ⟨⟨b, _⟩, _, rfl, rfl, ⟨i, _⟩, _, rfl, rfl, ⟨s, _⟩, _, rfl, rfl, ⟨r, _⟩, _, rfl, rfl,
    ⟨e, _⟩, _, rfl, rfl, rfl⟩ := h
  exact ⟨⟨b, i, s, r, e⟩, rfl⟩

end FieldRuns

/-! ## Cells among rows -/

/-- Groups of runs that are the given cells, each of them together in one row. -/
def Laid (rows : List Row) (cells : List Cell) (groups : List Row) : Prop :=
  List.Forall₂ (fun cell group => group.map Prod.snd = cell.contents ∧
    ∃ before after, before ++ (group ++ after) ∈ rows) cells groups

/-- A row whose contents are those of some cells consists of groups for these cells. -/
lemma exists_groups {cells : List Cell} {row : Row}
    (h : row.map Prod.snd = cells.flatMap Cell.contents) :
    ∃ groups : List Row, groups.flatten = row ∧
      List.Forall₂ (fun cell group => group.map Prod.snd = cell.contents) cells groups := by
  induction cells generalizing row with
  | nil => exact ⟨[], (List.map_eq_nil_iff.1 h).symm, .nil⟩
  | cons cell cells ih =>
    rw [List.flatMap_cons] at h
    obtain ⟨group, rest, rfl, hgroup, hrest⟩ := List.map_eq_append_iff.1 h
    obtain ⟨groups, rfl, hgroups⟩ := ih hrest
    exact ⟨group :: groups, rfl, .cons hgroup hgroups⟩

lemma Laid.of_row {rows : List Row} {cells : List Cell} {groups : List Row} {before : Row}
    (hrow : before ++ groups.flatten ∈ rows)
    (h : List.Forall₂ (fun cell group => group.map Prod.snd = cell.contents) cells groups) :
    Laid rows cells groups := by
  induction h generalizing before with
  | nil => exact .nil
  | @cons cell group cells groups hgroup _ ih =>
    rw [List.flatten_cons] at hrow
    have hrest : (before ++ group) ++ groups.flatten ∈ rows := by rwa [List.append_assoc]
    exact .cons ⟨hgroup, before, groups.flatten, hrow⟩ (ih hrest)

lemma Laid.append {rows : List Row} {cells cells' : List Cell} {groups groups' : List Row}
    (h : Laid rows cells groups) (h' : Laid rows cells' groups') :
    Laid rows (cells ++ cells') (groups ++ groups') :=
  List.rel_append h h'

lemma exists_laid {rows all : List Row} {paragraphs : List (List Cell)} (hrows : rows ⊆ all)
    (h : rows.map (fun row => row.map Prod.snd) =
      paragraphs.map fun cells => cells.flatMap Cell.contents) :
    ∃ groups, Laid all paragraphs.flatten groups ∧ groups.flatten = rows.flatten := by
  induction paragraphs generalizing rows with
  | nil =>
    obtain rfl := List.map_eq_nil_iff.1 h
    exact ⟨[], .nil, rfl⟩
  | cons cells paragraphs ih =>
    obtain ⟨row, rows, rfl, hrow, hrest⟩ := List.map_eq_cons_iff.1 h
    obtain ⟨hmem, hsubset⟩ := List.cons_subset.1 hrows
    obtain ⟨first, hflatten, hfirst⟩ := exists_groups hrow
    obtain ⟨groups, hlaid, hgroups⟩ := ih hsubset hrest
    have hmemFirst : [] ++ first.flatten ∈ all := by rwa [List.nil_append, hflatten]
    have hlaidFirst : Laid all cells first := .of_row hmemFirst hfirst
    refine ⟨first ++ groups, hlaidFirst.append hlaid, ?_⟩
    rw [List.flatten_append, hflatten, hgroups, List.flatten_cons]

namespace Document

variable {d : Document}

/-- The cells of a page are found among its runs, in order and without anything between them. -/
theorem Displays.exists_laid {paragraphs : List (List Cell)}
    (h : d.Displays [Tree.page paragraphs]) :
    ∃ rows groups, d.Sheet rows ∧ Laid rows paragraphs.flatten groups ∧
      groups.flatten = rows.flatten ∧ rows.length = paragraphs.length := by
  obtain ⟨rows, hsheet, hcontents⟩ := h.exists_sheet
  obtain ⟨groups, hlaid, hflatten⟩ :=
    WordFields.exists_laid (List.Subset.refl rows) hcontents
  refine ⟨rows, groups, hsheet, hlaid, hflatten, ?_⟩
  have hlength := congrArg List.length hcontents
  rwa [List.length_map, List.length_map] at hlength

namespace Sheet

/-- The first of some cells, if it is a run. -/
lemma of_laid_run {rows : List Row} (h : d.Sheet rows) {pieces : List Piece} {cells : List Cell}
    {groups : List Row} (hlaid : Laid rows (.run pieces :: cells) groups) :
    ∃ (run : NodeId) (groups' : List Row), d.Shows run
        (RunContent.text (String.ofList (pieces.flatMap Piece.spelling))).tree ∧
      groups = [(run, .text (String.ofList (pieces.flatMap Piece.spelling)))] :: groups' ∧
        Laid rows cells groups' := by
  obtain ⟨group, groups', ⟨hgroup, before, after, hrow⟩, hrest, rfl⟩ :=
    List.forall₂_cons_left_iff.1 hlaid
  obtain ⟨⟨run, content⟩, rfl, hcontent⟩ := List.map_eq_singleton_iff.1 hgroup
  have hmem : (run, content) ∈ rows.flatten := List.mem_flatten.2 ⟨_, hrow, by simp⟩
  have hshows := h.shows hmem
  rw [hcontent] at hshows
  exact ⟨run, groups', hshows, by rw [← hcontent], hrest⟩

/-- The first of some cells, if it is a field. -/
lemma of_laid_field {rows : List Row} {condition : Condition} {cells : List Cell}
    {groups : List Row} (hlaid : Laid rows (.field condition :: cells) groups) :
    ∃ (code : FieldRuns) (groups' : List Row),
      (∃ before after, before ++ (code.row condition ++ after) ∈ rows) ∧
        groups = code.row condition :: groups' ∧ Laid rows cells groups' := by
  obtain ⟨group, groups', ⟨hgroup, hrow⟩, hrest, rfl⟩ := List.forall₂_cons_left_iff.1 hlaid
  obtain ⟨code, rfl⟩ := FieldRuns.exists_of_contents hgroup
  exact ⟨code, groups', hrow, rfl, hrest⟩

end Sheet

/-! ## The code of a field -/

namespace Sheet

variable {rows : List Row} {runs : List NodeId} {index : Nat}

section

variable {code : FieldRuns} {condition : Condition} {before after : Row} {rest : List NodeId}

/-- The entries of the code of a field, each with what stands before and after it in its row. -/
lemma shows_code (h : d.Sheet rows) (hrow : before ++ (code.row condition ++ after) ∈ rows) :
    ∀ entry ∈ code.row condition, d.Shows entry.1 entry.2.tree := by
  intro entry hentry
  refine h.shows (List.mem_flatten.2 ⟨_, hrow, ?_⟩)
  exact List.mem_append_right _ (List.mem_append_left _ hentry)

lemma locateTriad_code (h : d.Sheet rows) (hrow : before ++ (code.row condition ++ after) ∈ rows)
    {holder : NodeId} (hholder : d.parent holder = some code.instruction) :
    ∃ triad, d.locateTriad holder = .ok triad ∧
      d.enclosingRun? triad.ending = some code.ending := by
  have hd := h.wellFormed
  have hshows := h.shows_code hrow
  simp only [FieldRuns.row, List.forall_mem_cons] at hshows
  obtain ⟨hbeginning, hinstruction, hseparator, hresult, hending, -⟩ := hshows
  obtain ⟨first, hfirst, -, -⟩ := Shows.markIn?_mark hd hbeginning
  obtain ⟨middle, hmiddle, hmiddleParent, -⟩ := Shows.markIn?_mark hd hseparator
  obtain ⟨last, hlast, -, hlastRun⟩ := Shows.markIn?_mark hd hending
  have hnone : d.markIn? .beginning code.instruction = none :=
    Shows.markIn?_eq_none hd hinstruction (by simp [RunContent.mark?])
  have hnoneResult : d.markIn? .ending code.result = none :=
    Shows.markIn?_eq_none hd hresult (by simp [RunContent.mark?])
  have hinstructionRow : (before ++ [(code.beginning, .mark .beginning)]) ++
      (code.instruction, .instruction condition.instruction) ::
        ((code.row condition).drop 2 ++ after) ∈ rows := by
    simpa [FieldRuns.row] using hrow
  have hseparatorRow : (before ++ (code.row condition).take 2) ++
      (code.separator, .mark .separator) :: ((code.row condition).drop 3 ++ after) ∈ rows := by
    simpa [FieldRuns.row] using hrow
  have hprevious : d.locatePrevious? holder .beginning = some first := by
    have hpreceding := h.precedingElements_eq hinstructionRow
    simp only at hpreceding
    rw [locatePrevious?, hholder]
    simp [hpreceding, hnone, hfirst]
  have hnext : d.locateNext? holder .separator = some middle := by
    have hfollowing := h.followingElements_eq hinstructionRow
    simp only at hfollowing
    rw [locateNext?, hholder]
    simp [hfollowing, FieldRuns.row, hmiddle]
  have hend : d.locateNext? middle .ending = some last := by
    have hfollowing := h.followingElements_eq hseparatorRow
    simp only at hfollowing
    rw [locateNext?, hmiddleParent]
    simp [hfollowing, FieldRuns.row, hnoneResult, hlast]
  refine ⟨⟨first, middle, last⟩, ?_, hlastRun⟩
  simp only [locateTriad, hprevious, hnext, hend]

/-- A field whose code is together in one row opens at the index of its first run. -/
lemma opensIf_code (h : d.Sheet rows) (hrow : before ++ (code.row condition ++ after) ∈ rows)
    (hruns : runs.drop index = code.runs ++ rest) : d.opensIf runs index = true := by
  have hshows := h.shows_code hrow
  simp only [FieldRuns.row, List.forall_mem_cons] at hshows
  obtain ⟨hbeginning, hinstruction, -⟩ := hshows
  have hrun : runs[index]? = some code.beginning := getElem?_of_drop hruns
  have hnext : runs[index + 1]? = some code.instruction :=
    getElem?_of_drop (@drop_of_drop _ runs [code.beginning] _ index hruns)
  obtain ⟨holder, hholder, htext, -⟩ := Shows.runInstruction? h.wellFormed hinstruction
  have hmark := Shows.runMark? h.wellFormed hbeginning
  simp only [RunContent.mark?] at hmark
  simp [opensIf, hrun, hnext, hmark, hholder, htext, Instruction.isConditional_instruction]

/-- The code of a field that is together in one row is read as its header. -/
theorem readHeader_code (h : d.Sheet rows)
    (hrow : before ++ (code.row condition ++ after) ∈ rows) (hcondition : condition.Writable)
    (hruns : runs.drop index = code.runs ++ rest) (hnodup : runs.Nodup) :
    d.readHeader runs index = .ok ⟨condition, condition.instruction, index + 4⟩ := by
  have hshows := h.shows_code hrow
  simp only [FieldRuns.row, List.forall_mem_cons] at hshows
  obtain ⟨-, hinstruction, -⟩ := hshows
  obtain ⟨holder, hholder, htext, hparent⟩ := Shows.runInstruction? h.wellFormed hinstruction
  obtain ⟨triad, htriad, hending⟩ := h.locateTriad_code hrow hparent
  have hnext : runs[index + 1]? = some code.instruction :=
    getElem?_of_drop (@drop_of_drop _ runs [code.beginning] _ index hruns)
  have hdrop : runs.drop (index + 2) = [code.separator, code.result, code.ending] ++ rest :=
    @drop_of_drop _ runs [code.beginning, code.instruction] _ index hruns
  have hdistinct : code.separator ≠ code.ending ∧ code.result ≠ code.ending := by
    have hsub := hnodup.sublist (List.drop_sublist (index + 2) runs)
    rw [hdrop] at hsub
    simp at hsub
    tauto
  refine readHeader_eq_ok_iff.2 ⟨holder, triad, ?_, Instruction.parse_instruction hcondition,
    htriad, ?_⟩
  · simp [instructionAt, hnext, hholder, htext]
  · simp [codeEnd?, hending, hdrop, List.idxOf?, List.findIdx?_cons, hdistinct.1, hdistinct.2]
    omega

/-- A field is read from its code and its content. -/
theorem readIf_code (h : d.Sheet rows) {options : Options}
    (hrow : before ++ (code.row condition ++ after) ∈ rows) (hcondition : condition.Writable)
    (hruns : runs.drop index = code.runs ++ rest) (hnodup : runs.Nodup) {content : IfContent}
    {next : Nat}
    (hcontent : ContentRun d options runs (d.readIf options runs) (index + 5) {} next content) :
    d.readIf options runs index =
      .ok
        { condition
          first := index
          codeRuns := code.runs
          ifTrue := content.ifTrue
          ifFalse := content.ifFalse
          markerRuns := content.markerRuns
          next } := by
  have hheader := h.readHeader_code hrow hcondition hruns hnodup
  refine readIf_eq_ok_iff.2 ⟨_, content, next, hheader, hcontent, ?_⟩
  have hcode : segment runs index (index + 4 + 1) = code.runs := segment_of_drop hruns
  rw [spanOf, hcode]

end

end Sheet

end Document

end WordFields
