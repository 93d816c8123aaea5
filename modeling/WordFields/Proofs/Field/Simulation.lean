import WordFields.Proofs.Field.Outline

/-!
# Cells and documents

A document in which some cells are written from an index of the runs on (`Ahead`) is read as these
cells are.  `ContentRun.of_consumes` and `ContentRun.consumes` are the two directions for the content
of a field: what the cells say is what is read, and when something is read the cells say so.
`Displays.ifSpans_iff_found` is the statement for a whole page.
-/

namespace WordFields

open Document

/-- The cells that are written from an index of the runs on. -/
structure Ahead (rows : List Row) (runs : List NodeId) (cells : List Cell) (index : Nat) : Prop where
  readable : ∀ cell ∈ cells, cell.Readable
  laid : ∃ groups, Laid rows cells groups ∧ runs.drop index = groups.flatten.map Prod.fst

section

variable {d : Document} {rows : List Row} {runs : List NodeId} {cells : List Cell} {index : Nat}

/-! ## The next cell -/

namespace Ahead

lemma length_le (h : Ahead rows runs [] index) : runs.length ≤ index := by
  obtain ⟨groups, hlaid, hruns⟩ := h.laid
  obtain rfl : groups = [] := List.forall₂_nil_left_iff.1 hlaid
  exact List.drop_eq_nil_iff.1 hruns

lemma of_run (hsheet : d.Sheet rows) {pieces : List Piece}
    (h : Ahead rows runs (.run pieces :: cells) index) :
    ∃ run, runs[index]? = some run ∧ Separate pieces ∧
      d.Shows run (RunContent.text (String.ofList (pieces.flatMap Piece.spelling))).tree ∧
        Ahead rows runs cells (index + 1) := by
  obtain ⟨groups, hlaid, hruns⟩ := h.laid
  obtain ⟨hpieces, hcells⟩ := List.forall_mem_cons.1 h.readable
  obtain ⟨run, groups, hshows, rfl, hrest⟩ := hsheet.of_laid_run hlaid
  have hdrop : runs.drop (index + 1) = groups.flatten.map Prod.fst :=
    @drop_of_drop _ runs [run] _ _ hruns
  exact ⟨run, getElem?_of_drop hruns, hpieces, hshows, hcells, groups, hrest, hdrop⟩

lemma of_field {condition : Condition} (h : Ahead rows runs (.field condition :: cells) index) :
    ∃ (code : FieldRuns) (before after : Row) (rest : List NodeId), condition.Writable ∧
      before ++ (code.row condition ++ after) ∈ rows ∧ runs.drop index = code.runs ++ rest ∧
        Ahead rows runs cells (index + 5) := by
  obtain ⟨groups, hlaid, hruns⟩ := h.laid
  obtain ⟨hcondition, hcells⟩ := List.forall_mem_cons.1 h.readable
  obtain ⟨code, groups, ⟨before, after, hrow⟩, rfl, hrest⟩ := Sheet.of_laid_field hlaid
  have hcode : runs.drop index = code.runs ++ groups.flatten.map Prod.fst := by
    rw [hruns, List.flatten_cons, List.map_append, FieldRuns.map_row]
  exact ⟨code, before, after, _, hcondition, hrow, hcode, hcells, groups, hrest,
    drop_of_drop hcode⟩

lemma lt_length (hsheet : d.Sheet rows) {cell : Cell} (h : Ahead rows runs (cell :: cells) index) :
    index < runs.length := by
  cases cell with
  | field condition =>
    obtain ⟨code, before, after, rest, -, -, hcode, -⟩ := h.of_field
    exact (List.getElem?_eq_some_iff.1 (getElem?_of_drop hcode)).1
  | run pieces =>
    obtain ⟨run, hrun, -⟩ := h.of_run hsheet
    exact (List.getElem?_eq_some_iff.1 hrun).1

end Ahead

namespace Document

/-! ## Steps -/

section

variable {nested : Nat → Except IfProblem IfSpan} {content : IfContent} {pieces : List Piece}
  {run : NodeId}

/-- A run of pieces is read as its pieces, whether there is a marker among them or not. -/
lemma exists_contentStep (hd : d.WellFormed) (hopen : content.isClosed = false) {outline : Outline}
    (hpieces : Separate pieces) (hreads : content.outline.pieces? pieces = some outline)
    (hrun : runs[index]? = some run)
    (hshows : d.Shows run
      (RunContent.text (String.ofList (pieces.flatMap Piece.spelling))).tree) :
    ∃ read, ContentStep d {} runs nested index content (index + 1) read ∧
      read.outline = outline := by
  have hopens : d.opensIf runs index = false := opensIf_eq_false hd hrun hshows
  have hmarked := hasMarker_eq hd hshows
  rw [String.toList_ofList] at hmarked
  by_cases hmarker : ∃ marker, .marker marker ∈ pieces
  · obtain ⟨marker, hmarker⟩ := hmarker
    obtain ⟨leaf, htexts⟩ := Shows.runTexts hd hshows
    rw [← content.outline_addMarkerRun? hpieces run, Option.map_eq_some_iff] at hreads
    obtain ⟨read, hread, houtline⟩ := hreads
    refine ⟨read, .markers hopen hrun hopens ?_ ?_, houtline⟩
    · rw [hmarked]
      exact Separate.occursIn_of_mem hmarker
    · rw [htexts]
      exact hread
  · have hunmarked := hpieces.occursIn_eq_false (not_exists.1 hmarker)
    refine ⟨_, .plain hopen hrun hopens (hmarked.trans hunmarked), ?_⟩
    rw [IfContent.outline_addRun hopen hpieces (not_exists.1 hmarker) run,
      Option.some.injEq] at hreads
    rw [Shows.runText hd hshows]
    exact hreads

/-- A step at a run of pieces reads the pieces. -/
lemma ContentStep.of_run (hd : d.WellFormed) (hpieces : Separate pieces)
    (hrun : runs[index]? = some run)
    (hshows : d.Shows run
      (RunContent.text (String.ofList (pieces.flatMap Piece.spelling))).tree)
    {index' : Nat} {read : IfContent}
    (h : ContentStep d {} runs nested index content index' read) :
    content.isClosed = false ∧ index' = index + 1 ∧
      content.outline.pieces? pieces = some read.outline := by
  have hopens : d.opensIf runs index = false := opensIf_eq_false hd hrun hshows
  have hmarked := hasMarker_eq hd hshows
  rw [String.toList_ofList] at hmarked
  cases h with
  | nested _ _ opens _ =>
    rw [hopens] at opens
    cases opens
  | markers isOpen atRun _ _ reads =>
    obtain rfl : _ = run := Option.some.inj (atRun.symm.trans hrun)
    obtain ⟨leaf, htexts⟩ := Shows.runTexts hd hshows
    rw [htexts] at reads
    refine ⟨isOpen, rfl, ?_⟩
    rw [← content.outline_addMarkerRun? hpieces, Option.map_eq_some_iff]
    exact ⟨read, reads, rfl⟩
  | plain isOpen atRun _ unmarked =>
    obtain rfl : _ = run := Option.some.inj (atRun.symm.trans hrun)
    have hmarker : ∀ marker, .marker marker ∉ pieces := by
      intro marker hmem
      rw [hmarked, Separate.occursIn_of_mem hmem] at unmarked
      cases unmarked
    refine ⟨isOpen, rfl, ?_⟩
    rw [Shows.runText hd hshows]
    exact IfContent.outline_addRun isOpen hpieces hmarker _

end

/-! ## Fields -/

section

variable {code : FieldRuns} {condition : Condition} {before after : Row} {rest : List NodeId}

/-- A field is read with the description that the outline of its content gives. -/
lemma Sheet.exists_readIf (h : d.Sheet rows) {next : Nat} {content : IfContent}
    (hrow : before ++ (code.row condition ++ after) ∈ rows) (hcondition : condition.Writable)
    (hruns : runs.drop index = code.runs ++ rest) (hnodup : runs.Nodup)
    (hcontent : ContentRun d {} runs (d.readIf {} runs) (index + 5) {} next content) :
    ∃ found, d.readIf {} runs index = .ok found ∧
      found.describe = content.outline.field condition ∧ found.next = next := by
  refine ⟨_, h.readIf_code hrow hcondition hruns hnodup hcontent, ?_, rfl⟩
  simp [IfSpan.describe, Outline.field, IfContent.outline]

/-- If a field is read, its content is, and the description comes from there. -/
lemma Sheet.content_of_readIf (h : d.Sheet rows) {found : IfSpan}
    (hrow : before ++ (code.row condition ++ after) ∈ rows) (hcondition : condition.Writable)
    (hruns : runs.drop index = code.runs ++ rest) (hnodup : runs.Nodup)
    (hfound : d.readIf {} runs index = .ok found) :
    ∃ content, ContentRun d {} runs (d.readIf {} runs) (index + 5) {} found.next content ∧
      found.describe = content.outline.field condition := by
  obtain ⟨header, content, next, hheader, hcontent, rfl⟩ := readIf_eq_ok_iff.1 hfound
  rw [h.readHeader_code hrow hcondition hruns hnodup] at hheader
  cases hheader
  refine ⟨content, hcontent, ?_⟩
  simp [spanOf, IfSpan.describe, Outline.field, IfContent.outline]

/-- A step at a field reads the field. -/
lemma ContentStep.of_field (hsheet : d.Sheet rows)
    (hrow : before ++ (code.row condition ++ after) ∈ rows)
    (hruns : runs.drop index = code.runs ++ rest) {nested : Nat → Except IfProblem IfSpan}
    {index' : Nat} {content read : IfContent}
    (h : ContentStep d {} runs nested index content index' read) :
    content.isClosed = false ∧ ∃ found, nested index = .ok found ∧ index' = found.next ∧
      read = content.add (.nested found) := by
  have hopens := hsheet.opensIf_code hrow hruns
  cases h with
  | nested isOpen _ _ reads => exact ⟨isOpen, _, reads, rfl, rfl⟩
  | markers _ _ opens _ _ =>
    rw [hopens] at opens
    cases opens
  | plain _ _ opens _ =>
    rw [hopens] at opens
    cases opens

end

/-! ## The content of a field -/

/-- What cells say about the content of a field is what is read from a document with these
cells. -/
theorem ContentRun.of_consumes (h : d.Sheet rows) (hnodup : runs.Nodup) {rest : List Cell}
    {outline after : Outline} (hconsumes : Consumes cells outline rest after)
    {content : IfContent} (hcells : Ahead rows runs cells index)
    (hcontent : content.outline = outline) :
    ∃ next read, ContentRun d {} runs (d.readIf {} runs) index content next read ∧
      read.outline = after ∧ Ahead rows runs rest next := by
  induction hconsumes generalizing index content with
  | closed isClosed =>
    subst hcontent
    exact ⟨index, content, .closed isClosed, rfl, hcells⟩
  | @field condition cells cells' rest outline inner after isOpen _ _ ihContent ihNext =>
    subst hcontent
    obtain ⟨code, before, behind, others, hcondition, hrow, hcode, hinside⟩ := hcells.of_field
    obtain ⟨next, read, hinner, rfl, hbehind⟩ := ihContent hinside IfContent.outline_empty
    obtain ⟨found, hfound, hdescribe, rfl⟩ :=
      h.exists_readIf hrow hcondition hcode hnodup hinner
    have hstep : ContentStep d {} runs (d.readIf {} runs) index content found.next
        (content.add (.nested found)) :=
      .nested isOpen (getElem?_of_drop hcode) (h.opensIf_code hrow hcode) hfound
    have houtline : (content.add (.nested found)).outline =
        content.outline.add (.field (read.outline.field condition)) :=
      content.outline_add (by rw [BranchEntry.describe, hdescribe])
    obtain ⟨next', read', hrest, hread⟩ := ihNext hbehind houtline
    exact ⟨next', read', .step hstep hrest, hread⟩
  | @run pieces cells rest outline read after isOpen reads _ ih =>
    subst hcontent
    obtain ⟨run, hrun, hpieces, hshows, hbehind⟩ := hcells.of_run h
    obtain ⟨content', hstep, houtline⟩ :=
      exists_contentStep h.wellFormed isOpen hpieces reads hrun hshows
    obtain ⟨next, read', hrest, hread⟩ := ih hbehind houtline
    exact ⟨next, read', .step hstep hrest, hread⟩

/-- What is read as the content of a field is what the cells say. -/
theorem ContentRun.consumes (h : d.Sheet rows) (hnodup : runs.Nodup) {cells : List Cell}
    {index next : Nat} {content after : IfContent} (hcells : Ahead rows runs cells index)
    (hrun : ContentRun d {} runs (d.readIf {} runs) index content next after) :
    ∃ rest, Consumes cells content.outline rest after.outline ∧ Ahead rows runs rest next ∧
      rest.length ≤ cells.length := by
  cases hrun with
  | closed isClosed => exact ⟨cells, .closed isClosed, hcells, Nat.le_refl _⟩
  | @step _ index' _ _ content' _ first hrest =>
    match cells, hcells with
    | [], hcells =>
      have hlt := (first.progress fun _ _ => readIf_progress).1
      have hle := hcells.length_le
      omega
    | .run pieces :: cells, hcells =>
      obtain ⟨run, atRun, hpieces, hshows, hbehind⟩ := hcells.of_run h
      obtain ⟨isOpen, rfl, hreads⟩ := first.of_run h.wellFormed hpieces atRun hshows
      obtain ⟨rest, hconsumes, hahead, hlength⟩ := hrest.consumes h hnodup hbehind
      exact ⟨rest, .run isOpen hreads hconsumes, hahead, Nat.le_succ_of_le hlength⟩
    | .field condition :: cells, hcells =>
      obtain ⟨code, before, behind, others, hcondition, hrow, hcode, hinside⟩ := hcells.of_field
      obtain ⟨isOpen, found, hfound, rfl, rfl⟩ := first.of_field h hrow hcode
      obtain ⟨inner, hinner, hdescribe⟩ :=
        h.content_of_readIf hrow hcondition hcode hnodup hfound
      obtain ⟨cells', hcontent, hbehind, hshorter⟩ := hinner.consumes h hnodup hinside
      obtain ⟨rest, hnext, hahead, hlength⟩ := hrest.consumes h hnodup hbehind
      have houtline : (content.add (.nested found)).outline =
          content.outline.add (.field (inner.outline.field condition)) :=
        content.outline_add (by rw [BranchEntry.describe, hdescribe])
      rw [IfContent.outline_empty] at hcontent
      rw [houtline] at hnext
      refine ⟨rest, .field isOpen hcontent hnext, hahead, ?_⟩
      rw [List.length_cons]
      omega
termination_by cells.length

/-! ## All fields -/

/-- The fields that are found among cells are those of every document with these cells. -/
lemma exists_readIfsFrom (h : d.Sheet rows) (hnodup : runs.Nodup) {fields : List IfField}
    (hfound : Found cells fields) {steps : Nat} {reported : List Nat}
    (hcells : Ahead rows runs cells index) (hsteps : runs.length ≤ steps + index) :
    ∃ spans, d.readIfsFrom {} runs steps index reported = (spans, []) ∧
      spans.map IfSpan.describe = fields := by
  induction hfound generalizing steps index with
  | nil =>
    have hend : runs.length ≤ index := hcells.length_le
    refine ⟨[], ?_, rfl⟩
    cases steps with
    | zero => rfl
    | succ steps => rw [readIfsFrom, if_pos hend]
  | @field condition cells cells' inner fields hcontent _ ih =>
    have hlt : index < runs.length := hcells.lt_length h
    obtain ⟨code, before, behind, others, hcondition, hrow, hcode, hinside⟩ := hcells.of_field
    obtain ⟨next, read, hinner, rfl, hbehind⟩ :=
      ContentRun.of_consumes h hnodup hcontent hinside IfContent.outline_empty
    obtain ⟨found, hfound, hdescribe, rfl⟩ :=
      h.exists_readIf hrow hcondition hcode hnodup hinner
    have hprogress : index < found.next := readIf_progress hfound
    obtain ⟨steps, rfl⟩ : ∃ steps', steps = steps' + 1 := ⟨steps - 1, by omega⟩
    have hlater : runs.length ≤ steps + found.next := by omega
    obtain ⟨spans, hspans, hdescribed⟩ := ih hbehind hlater
    refine ⟨found :: spans, ?_, by rw [List.map_cons, hdescribe, hdescribed]⟩
    rw [readIfsFrom, if_neg (by omega), if_pos (h.opensIf_code hrow hcode), hfound]
    simp only [hspans]
  | @run pieces cells fields _ ih =>
    have hlt : index < runs.length := hcells.lt_length h
    obtain ⟨run, hrun, -, hshows, hbehind⟩ := hcells.of_run h
    obtain ⟨steps, rfl⟩ : ∃ steps', steps = steps' + 1 := ⟨steps - 1, by omega⟩
    have hlater : runs.length ≤ steps + (index + 1) := by omega
    obtain ⟨spans, hspans, hdescribed⟩ := ih hbehind hlater
    have hopens := opensIf_eq_false h.wellFormed hrun hshows
    refine ⟨spans, ?_, hdescribed⟩
    rw [readIfsFrom, if_neg (by omega), if_neg (by simp [hopens])]
    exact hspans

/-- Where nothing is reported, there are fields to be found among the cells. -/
lemma exists_found (h : d.Sheet rows) (hnodup : runs.Nodup) {steps : Nat}
    (hcells : Ahead rows runs cells index) (hsteps : runs.length ≤ steps + index)
    (hnone : (d.readIfsFrom {} runs steps index []).2 = []) : ∃ fields, Found cells fields := by
  induction steps generalizing cells index with
  | zero =>
    match cells, hcells with
    | [], _ => exact ⟨[], .nil⟩
    | cell :: cells, hcells =>
      have hlt : index < runs.length := hcells.lt_length h
      omega
  | succ steps ih =>
    match cells, hcells with
    | [], _ => exact ⟨[], .nil⟩
    | .run pieces :: cells, hcells =>
      have hlt : index < runs.length := hcells.lt_length h
      obtain ⟨run, hrun, -, hshows, hbehind⟩ := hcells.of_run h
      have hopens := opensIf_eq_false h.wellFormed hrun hshows
      rw [readIfsFrom, if_neg (by omega), if_neg (by simp [hopens])] at hnone
      obtain ⟨fields, hfields⟩ := ih hbehind (by omega) hnone
      exact ⟨fields, .run hfields⟩
    | .field condition :: cells, hcells =>
      have hlt : index < runs.length := hcells.lt_length h
      obtain ⟨code, before, behind, others, hcondition, hrow, hcode, hinside⟩ := hcells.of_field
      rw [readIfsFrom, if_neg (by omega), if_pos (h.opensIf_code hrow hcode)] at hnone
      cases hfound : d.readIf {} runs index with
      | error problem => simp [hfound] at hnone
      | ok found =>
        rw [hfound] at hnone
        have hprogress : index < found.next := readIf_progress hfound
        obtain ⟨inner, hinner, -⟩ := h.content_of_readIf hrow hcondition hcode hnodup hfound
        obtain ⟨cells', hcontent, hbehind, -⟩ := hinner.consumes h hnodup hinside
        rw [IfContent.outline_empty] at hcontent
        obtain ⟨fields, hfields⟩ := ih hbehind (by omega) hnone
        exact ⟨_, .field hcontent hfields⟩

/-- A page has some fields and nothing to report if and only if its cells say so. -/
theorem Displays.ifSpans_iff_found {paragraphs : List (List Cell)} {fields : List IfField}
    (h : d.Displays [Tree.page paragraphs])
    (hcells : ∀ cell ∈ paragraphs.flatten, cell.Readable) :
    ((d.ifSpans {}).2 = [] ∧ (d.ifSpans {}).1.map IfSpan.describe = fields) ↔
      Found paragraphs.flatten fields := by
  obtain ⟨rows, groups, hsheet, hlaid, hgroups, -⟩ := h.exists_laid
  have hnodup : d.runs.Nodup := hsheet.wellFormed.nodup_runs
  have hruns : d.runs.drop 0 = groups.flatten.map Prod.fst := by
    rw [List.drop_zero, hsheet.runs_eq, hgroups]
  have hahead : Ahead rows d.runs paragraphs.flatten 0 := ⟨hcells, groups, hlaid, hruns⟩
  have hsteps : d.runs.length ≤ d.runs.length + 1 + 0 := by omega
  have hfound : ∀ fields', Found paragraphs.flatten fields' →
      (d.ifSpans {}).2 = [] ∧ (d.ifSpans {}).1.map IfSpan.describe = fields' := by
    intro fields' hfields'
    obtain ⟨spans, hspans, hdescribed⟩ :=
      exists_readIfsFrom hsheet hnodup hfields' hahead hsteps
    have hall : d.ifSpans {} = (spans, []) := hspans
    rw [hall]
    exact ⟨rfl, hdescribed⟩
  constructor
  · rintro ⟨hnone, rfl⟩
    obtain ⟨fields', hfields'⟩ := exists_found hsheet hnodup hahead hsteps hnone
    rw [(hfound fields' hfields').2]
    exact hfields'
  · exact hfound fields

end Document

end

end WordFields
