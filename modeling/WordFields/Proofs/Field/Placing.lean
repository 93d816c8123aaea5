import WordFields.Proofs.Field.Content

/-!
# Templates placed in a document

`Placed` is a template that knows the runs of its texts, codes and markers.  Where a template stands
in a document with a run for each piece, the fields that are read there are known exactly: their
indexes, the roles of their runs and the sides of the texts beside their markers
(`Placed.entries`).  `Placed.contentRun` is the statement for the content of a field, by induction
over the template; each field inside is read by the same statement for its branches.
-/

namespace WordFields

open Document

/-- A template with the runs in which it is written. -/
inductive Placed where
  | nil
  | text (run : NodeId) (text : String) (rest : Placed)
  | field (condition : Condition) (code : FieldRuns) (ifTrue : Placed) (elseRun : NodeId)
      (ifFalse : Placed) (endRun : NodeId) (rest : Placed)

namespace Placed

def template : Placed → Template
  | nil => .nil
  | text _ content rest => .text content rest.template
  | field condition _ ifTrue _ ifFalse _ rest =>
    .field condition ifTrue.template ifFalse.template rest.template

lemma eq_nil_of_template {placed : Placed} (h : placed.template = .nil) : placed = nil := by
  cases placed with
  | nil => rfl
  | text run content rest => cases h
  | field condition code ifTrue elseRun ifFalse endRun rest => cases h

lemma eq_text_of_template {placed : Placed} {content : String} {rest : Template}
    (h : placed.template = .text content rest) :
    ∃ run tail, placed = text run content tail ∧ tail.template = rest := by
  cases placed with
  | nil => cases h
  | text run content tail =>
    cases h
    exact ⟨run, tail, rfl, rfl⟩
  | field condition code ifTrue elseRun ifFalse endRun rest => cases h

lemma eq_field_of_template {placed : Placed} {condition : Condition}
    {ifTrue ifFalse rest : Template} (h : placed.template = .field condition ifTrue ifFalse rest) :
    ∃ code placedTrue elseRun placedFalse endRun tail,
      placed = field condition code placedTrue elseRun placedFalse endRun tail ∧
        placedTrue.template = ifTrue ∧ placedFalse.template = ifFalse ∧ tail.template = rest := by
  cases placed with
  | nil => cases h
  | text run content tail => cases h
  | field condition code placedTrue elseRun placedFalse endRun tail =>
    cases h
    exact ⟨code, placedTrue, elseRun, placedFalse, endRun, tail, rfl, rfl, rfl, rfl⟩

/-- The runs of a placed template, with what they hold. -/
def row : Placed → Row
  | nil => []
  | text run content rest => (run, .text content) :: rest.row
  | field condition code ifTrue elseRun ifFalse endRun rest =>
    code.row condition ++ (ifTrue.row ++ (elseRun, .text Marker.elseMarker.text) ::
      (ifFalse.row ++ (endRun, .text Marker.endMarker.text) :: rest.row))

def runs (placed : Placed) : List NodeId :=
  placed.row.map Prod.fst

@[simp] lemma runs_nil : nil.runs = [] :=
  rfl

@[simp] lemma runs_text (run : NodeId) (content : String) (rest : Placed) :
    (text run content rest).runs = run :: rest.runs :=
  rfl

@[simp] lemma runs_field (condition : Condition) (code : FieldRuns) (ifTrue : Placed)
    (elseRun : NodeId) (ifFalse : Placed) (endRun : NodeId) (rest : Placed) :
    (field condition code ifTrue elseRun ifFalse endRun rest).runs =
      code.runs ++ (ifTrue.runs ++ elseRun :: (ifFalse.runs ++ endRun :: rest.runs)) := by
  simp [runs, row, FieldRuns.map_row]

/-- Whether a document shows a placed template, the code of each field together in a row. -/
def Stands (d : Document) (rows : List Row) : Placed → Prop
  | nil => True
  | text run content rest => d.Shows run (RunContent.text content).tree ∧ rest.Stands d rows
  | field condition code ifTrue elseRun ifFalse endRun rest =>
    (∃ before after, before ++ (code.row condition ++ after) ∈ rows) ∧ ifTrue.Stands d rows ∧
      d.Shows elseRun (RunContent.text Marker.elseMarker.text).tree ∧ ifFalse.Stands d rows ∧
        d.Shows endRun (RunContent.text Marker.endMarker.text).tree ∧ rest.Stands d rows

/-- The entries of a branch that is placed at an index. -/
def entries : Nat → Placed → List BranchEntry
  | _, nil => []
  | index, text run content rest => .text run content :: rest.entries (index + 1)
  | index, field condition code ifTrue elseRun ifFalse endRun rest =>
    let elseIndex := index + 5 + ifTrue.runs.length
    let endIndex := elseIndex + 1 + ifFalse.runs.length
    .nested
      { condition
        first := index
        codeRuns := code.runs
        ifTrue := ifTrue.entries (index + 5)
        ifFalse := ifFalse.entries (elseIndex + 1)
        markerRuns := [⟨elseRun, [.ifTrue, .ifFalse]⟩, ⟨endRun, [.ifFalse, .outside]⟩]
        next := endIndex + 1 } :: rest.entries (endIndex + 1)

/-! ## Placing -/

lemma spelling_text (content : String) :
    String.ofList ([Piece.text content.toList].flatMap Piece.spelling) = content := by
  simp [Piece.spelling]

lemma spelling_marker (marker : Marker) :
    String.ofList ([Piece.marker marker].flatMap Piece.spelling) = marker.text := by
  simp [Piece.spelling, Marker.text]

/-- A template stands where its cells are. -/
lemma exists_of_laid {d : Document} {rows : List Row} (hsheet : d.Sheet rows)
    {template : Template} {rest : List Cell} {groups : List Row}
    (h : Laid rows (template.cells ++ rest) groups) :
    ∃ (placed : Placed) (groups' : List Row), placed.template = template ∧
      placed.Stands d rows ∧ groups.flatten = placed.row ++ groups'.flatten ∧
        Laid rows rest groups' := by
  induction template generalizing rest groups with
  | nil => exact ⟨nil, groups, rfl, trivial, rfl, h⟩
  | text content tail ih =>
    obtain ⟨run, groups₁, hrun, rfl, h₁⟩ := hsheet.of_laid_run h
    obtain ⟨placed, groups', rfl, hstands, hflatten, hlaid⟩ := ih h₁
    rw [spelling_text] at hrun ⊢
    refine ⟨text run content placed, groups', rfl, ⟨hrun, hstands⟩, ?_, hlaid⟩
    rw [List.flatten_cons, hflatten]
    rfl
  | field condition ifTrue ifFalse tail ihTrue ihFalse ihRest =>
    simp only [Template.cells, List.cons_append, List.append_assoc] at h
    obtain ⟨code, groups₁, hcode, rfl, h₁⟩ := Sheet.of_laid_field h
    obtain ⟨placedTrue, groups₂, rfl, htrue, hflattenTrue, h₂⟩ := ihTrue h₁
    obtain ⟨elseRun, groups₃, helse, rfl, h₃⟩ := hsheet.of_laid_run h₂
    obtain ⟨placedFalse, groups₄, rfl, hfalse, hflattenFalse, h₄⟩ := ihFalse h₃
    obtain ⟨endRun, groups₅, hend, rfl, h₅⟩ := hsheet.of_laid_run h₄
    obtain ⟨placedRest, groups', rfl, hrest, hflattenRest, h₆⟩ := ihRest h₅
    rw [spelling_marker] at helse hflattenTrue hend hflattenFalse
    refine ⟨field condition code placedTrue elseRun placedFalse endRun placedRest, groups', rfl,
      ⟨hcode, htrue, helse, hfalse, hend, hrest⟩, ?_, h₆⟩
    rw [List.flatten_cons, hflattenTrue, List.flatten_cons, hflattenFalse, List.flatten_cons,
      hflattenRest]
    simp [row]

/-! ## What is described -/

/-- The entries of a placed template describe the template. -/
lemma describe_entries (placed : Placed) (index : Nat) :
    describeEntries (placed.entries index) = placed.template.items := by
  induction placed generalizing index with
  | nil => simp [entries, describeEntries, template, Template.items]
  | text run content rest ih =>
    simp [entries, describeEntries, BranchEntry.describe, template, Template.items, ih]
  | field condition code ifTrue elseRun ifFalse endRun rest ihTrue ihFalse ihRest =>
    simp [entries, describeEntries, BranchEntry.describe, IfSpan.describe, template,
      Template.items, ihTrue, ihFalse, ihRest]

/-! ## What is read -/

section

variable {d : Document} {options : Options} {rows : List Row} {runs : List NodeId}

/-- What reading content does where a placed template stands: it adds the entries of the template
and goes on behind it. -/
def Reads (d : Document) (options : Options) (runs : List NodeId) (placed : Placed) : Prop :=
  ∀ {index next : Nat} {rest : List NodeId} {content after : IfContent},
    runs.drop index = placed.runs ++ rest → content.isClosed = false →
      ContentRun d options runs (d.readIf options runs) (index + placed.runs.length)
        (content.addAll (placed.entries index)) next after →
      ContentRun d options runs (d.readIf options runs) index content next after

/-- The span of a placed field at an index. -/
def span (index : Nat) (condition : Condition) (code : FieldRuns) (ifTrue : Placed)
    (elseRun : NodeId) (ifFalse : Placed) (endRun : NodeId) : IfSpan :=
  let elseIndex := index + 5 + ifTrue.runs.length
  let endIndex := elseIndex + 1 + ifFalse.runs.length
  { condition
    first := index
    codeRuns := code.runs
    ifTrue := ifTrue.entries (index + 5)
    ifFalse := ifFalse.entries (elseIndex + 1)
    markerRuns := [⟨elseRun, [.ifTrue, .ifFalse]⟩, ⟨endRun, [.ifFalse, .outside]⟩]
    next := endIndex + 1 }

/-- The runs behind a placed field. -/
lemma drop_next {index : Nat} {condition : Condition} {code : FieldRuns} {ifTrue ifFalse : Placed}
    {elseRun endRun : NodeId} {rest : List NodeId}
    (hruns : runs.drop index =
      code.runs ++ (ifTrue.runs ++ elseRun :: (ifFalse.runs ++ endRun :: rest))) :
    runs.drop (span index condition code ifTrue elseRun ifFalse endRun).next = rest := by
  have hdropElse := drop_of_drop (drop_of_drop hruns)
  have hdropFalse := @drop_of_drop _ runs [elseRun] _ _ hdropElse
  exact @drop_of_drop _ runs [endRun] _ _ (drop_of_drop hdropFalse)

/-- A placed field is read if its branches are. -/
lemma readIf_field (h : d.Sheet rows) (hnodup : runs.Nodup) {index : Nat} {condition : Condition}
    {code : FieldRuns} {ifTrue ifFalse : Placed} {elseRun endRun : NodeId} {rest : List NodeId}
    (hcondition : condition.Writable)
    (hcode : ∃ before after, before ++ (code.row condition ++ after) ∈ rows)
    (helse : d.Shows elseRun (RunContent.text Marker.elseMarker.text).tree)
    (hend : d.Shows endRun (RunContent.text Marker.endMarker.text).tree)
    (htrue : Reads d options runs ifTrue) (hfalse : Reads d options runs ifFalse)
    (hruns : runs.drop index =
      code.runs ++ (ifTrue.runs ++ elseRun :: (ifFalse.runs ++ endRun :: rest))) :
    d.readIf options runs index =
      .ok (span index condition code ifTrue elseRun ifFalse endRun) := by
  obtain ⟨before, after, hrow⟩ := hcode
  have hd := h.wellFormed
  have hdropTrue : runs.drop (index + 5) =
      ifTrue.runs ++ elseRun :: (ifFalse.runs ++ endRun :: rest) := drop_of_drop hruns
  have hdropElse := drop_of_drop hdropTrue
  have hdropFalse : runs.drop (index + 5 + ifTrue.runs.length + 1) =
      ifFalse.runs ++ endRun :: rest := @drop_of_drop _ runs [elseRun] _ _ hdropElse
  have hdropEnd := drop_of_drop hdropFalse
  -- The content after each part, from the empty one to the one that is closed.
  let read₁ : IfContent := { ifTrue := ifTrue.entries (index + 5) }
  let read₂ : IfContent :=
    { read₁ with
      inTrue := false
      seenElse := true
      markerRuns := [⟨elseRun, [.ifTrue, .ifFalse]⟩] }
  let read₃ : IfContent :=
    { read₂ with ifFalse := ifFalse.entries (index + 5 + ifTrue.runs.length + 1) }
  let read₄ : IfContent :=
    { read₃ with
      isClosed := true
      markerRuns := [⟨elseRun, [.ifTrue, .ifFalse]⟩, ⟨endRun, [.ifFalse, .outside]⟩] }
  have helseMarker : read₁.addMarker? options .elseMarker =
      some { read₁ with inTrue := false, seenElse := true } := by
    cases hpolicy : options.elsePolicy <;> simp [IfContent.addMarker?, hpolicy, read₁]
  have hendMarker : read₃.addMarker? options .endMarker = some { read₃ with isClosed := true } := by
    simp [IfContent.addMarker?, read₃, read₂, read₁]
  have hendStep : ContentStep d options runs (d.readIf options runs) _ read₃ _ read₄ :=
    contentStep_marker hd rfl hendMarker (getElem?_of_drop hdropEnd) hend
  have helseStep : ContentStep d options runs (d.readIf options runs) _ read₁ _ read₂ :=
    contentStep_marker hd rfl helseMarker (getElem?_of_drop hdropElse) helse
  let next := index + 5 + ifTrue.runs.length + 1 + ifFalse.runs.length + 1
  have hrunFalse : ContentRun d options runs (d.readIf options runs)
      (index + 5 + ifTrue.runs.length + 1) read₂ next read₄ := by
    refine hfalse hdropFalse rfl ?_
    rw [IfContent.addAll_of_inFalse rfl]
    exact .step hendStep (.closed rfl)
  have hrunTrue : ContentRun d options runs (d.readIf options runs) (index + 5) {} next read₄ := by
    refine htrue hdropTrue rfl ?_
    rw [IfContent.addAll_of_inTrue rfl]
    exact .step helseStep hrunFalse
  exact h.readIf_code hrow hcondition hruns hnodup hrunTrue

/-- A placed template is read as its entries. -/
theorem reads (h : d.Sheet rows) (hoptions : options.ifPlaceholder = shownResult)
    (hnodup : runs.Nodup) {placed : Placed} (hover : placed.template.Over ContentText)
    (hstands : placed.Stands d rows) : Reads d options runs placed := by
  induction placed with
  | nil =>
    intro index next rest content after hruns hopen hrest
    exact hrest
  | text run content tail ih =>
    intro index next rest read after hruns hopen hrest
    have hstep : ContentStep d options runs (d.readIf options runs) index read (index + 1)
        (read.add (.text run content)) :=
      contentStep_text h.wellFormed hoptions hopen hover.1 (getElem?_of_drop hruns) hstands.1
    have hindex : index + (text run content tail).runs.length = index + 1 + tail.runs.length := by
      rw [runs_text, List.length_cons]
      omega
    rw [hindex] at hrest
    refine .step hstep (ih hover.2 hstands.2 (@drop_of_drop _ runs [run] _ _ hruns) ?_ hrest)
    rw [IfContent.isClosed_add]
    exact hopen
  | field condition code ifTrue elseRun ifFalse endRun tail ihTrue ihFalse ihRest =>
    intro index next rest read after hruns hopen hrest
    obtain ⟨hcondition, hoverTrue, hoverFalse, hoverRest⟩ := hover
    obtain ⟨hcode, htrue, helse, hfalse, hend, hstandsRest⟩ := hstands
    have hdrop : runs.drop index = code.runs ++ (ifTrue.runs ++ elseRun ::
        (ifFalse.runs ++ endRun :: (tail.runs ++ rest))) := by
      rw [hruns, runs_field]
      simp
    have hfield := readIf_field h hnodup hcondition hcode helse hend (ihTrue hoverTrue htrue)
      (ihFalse hoverFalse hfalse) hdrop
    obtain ⟨before, following, hrow⟩ := hcode
    have hstep : ContentStep d options runs (d.readIf options runs) index read _ _ :=
      .nested hopen (getElem?_of_drop hdrop) (h.opensIf_code hrow hdrop) hfield
    have hindex : index + (field condition code ifTrue elseRun ifFalse endRun tail).runs.length =
        (span index condition code ifTrue elseRun ifFalse endRun).next + tail.runs.length := by
      simp only [runs_field, List.length_append, List.length_cons, span, FieldRuns.runs,
        List.length_nil]
      omega
    rw [hindex] at hrest
    refine .step hstep (ihRest hoverRest hstandsRest (drop_next hdrop) ?_ hrest)
    rw [IfContent.isClosed_add]
    exact hopen

/-! ## What is found -/

/-- The spans of the fields that are not inside others. -/
def spans : Nat → Placed → List IfSpan
  | _, nil => []
  | index, text _ _ rest => rest.spans (index + 1)
  | index, field condition code ifTrue elseRun ifFalse endRun rest =>
    let found := span index condition code ifTrue elseRun ifFalse endRun
    found :: rest.spans found.next

/-- The spans of a placed template describe the fields of the template. -/
lemma describe_spans (placed : Placed) (index : Nat) :
    (placed.spans index).map IfSpan.describe = placed.template.fields := by
  induction placed generalizing index with
  | nil => rfl
  | text run content rest ih =>
    rw [spans, ih]
    rfl
  | field condition code ifTrue elseRun ifFalse endRun rest _ _ ihRest =>
    rw [spans, List.map_cons, ihRest]
    simp [span, IfSpan.describe, describe_entries, template, Template.fields, Template.items,
      BranchItem.field?]

/-- A pass over the runs of a placed template finds its fields, and nothing to report. -/
lemma readIfsFrom_eq (h : d.Sheet rows) (hoptions : options.ifPlaceholder = shownResult)
    (hnodup : runs.Nodup) {placed : Placed} (hover : placed.template.Over ContentText)
    (hstands : placed.Stands d rows) {steps index : Nat} {reported : List Nat}
    (hruns : runs.drop index = placed.runs) (hsteps : runs.length ≤ steps + index) :
    d.readIfsFrom options runs steps index reported = (placed.spans index, []) := by
  induction placed generalizing steps index with
  | nil =>
    have hend : runs.length ≤ index := List.drop_eq_nil_iff.1 hruns
    cases steps with
    | zero => rfl
    | succ steps => rw [readIfsFrom, if_pos hend, spans]
  | text run content tail ih =>
    have hrun : runs[index]? = some run := getElem?_of_drop hruns
    have hlt : index < runs.length := (List.getElem?_eq_some_iff.1 hrun).1
    obtain ⟨steps, rfl⟩ : ∃ steps', steps = steps' + 1 := ⟨steps - 1, by omega⟩
    have hopens := opensIf_eq_false h.wellFormed hrun hstands.1
    have hrest : d.readIfsFrom options runs steps (index + 1) reported =
        (tail.spans (index + 1), []) :=
      ih hover.2 hstands.2 (@drop_of_drop _ runs [run] _ _ hruns) (by omega)
    rw [readIfsFrom, if_neg (by omega), if_neg (by simp [hopens]), hrest, spans]
  | field condition code ifTrue elseRun ifFalse endRun tail _ _ ihRest =>
    obtain ⟨hcondition, hoverTrue, hoverFalse, hoverRest⟩ := hover
    obtain ⟨hcode, htrue, helse, hfalse, hend, hstandsRest⟩ := hstands
    rw [runs_field] at hruns
    have hrun : runs[index]? = some code.beginning := getElem?_of_drop hruns
    have hlt : index < runs.length := (List.getElem?_eq_some_iff.1 hrun).1
    obtain ⟨steps, rfl⟩ : ∃ steps', steps = steps' + 1 := ⟨steps - 1, by omega⟩
    have hfield := readIf_field h hnodup hcondition hcode helse hend
      (reads h hoptions hnodup hoverTrue htrue) (reads h hoptions hnodup hoverFalse hfalse) hruns
    obtain ⟨before, after, hrow⟩ := hcode
    have hopens := h.opensIf_code hrow hruns
    let found := span index condition code ifTrue elseRun ifFalse endRun
    have hfound : index < found.next := readIf_progress hfield
    have hlater : runs.length ≤ steps + found.next := by omega
    have hrest : d.readIfsFrom options runs steps found.next reported =
        (tail.spans found.next, []) :=
      ihRest hoverRest hstandsRest (drop_next hruns) hlater
    rw [readIfsFrom, if_neg (by omega), if_pos hopens, hfield]
    simp only [spans]
    rw [hrest]

/-- The fields of a document in which nothing but a placed template stands. -/
theorem ifSpans_eq (h : d.Sheet rows) (hoptions : options.ifPlaceholder = shownResult)
    {placed : Placed} (hover : placed.template.Over ContentText) (hstands : placed.Stands d rows)
    (hrow : rows.flatten = placed.row) : d.ifSpans options = (placed.spans 0, []) := by
  have hruns : d.runs = placed.runs := by rw [h.runs_eq, hrow, Placed.runs]
  exact readIfsFrom_eq h hoptions h.wellFormed.nodup_runs hover hstands hruns (by omega)

end

end Placed

end WordFields
