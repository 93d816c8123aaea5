import WordFields.Proofs.Field.Extraction
import WordFields.Proofs.Field.Joining
import WordFields.Proofs.Field.Simulation

/-!
# Documents divided into runs

The same template may be divided into runs in many ways.  `ifSpans_joined_iff` says which of them
show the fields of the template: those in which nothing but an idle `%else%` stands behind the
closing marker of an inner field in its run.  Elsewhere a text is lost, a false branch is read as a
part of the true one, or the outer field is never closed.
-/

namespace WordFields

namespace Template

/-! ## Texts in joined cells -/

def startsWithText : Template → Bool
  | text _ _ => true
  | _ => false

/-- Whether no two texts are next to each other. -/
def Separated : Template → Prop
  | nil => True
  | text _ rest => rest.startsWithText = false ∧ rest.Separated
  | field _ ifTrue ifFalse rest => ifTrue.Separated ∧ ifFalse.Separated ∧ rest.Separated

end Template

/-- Whether a cell is a run with just a text. -/
def Cell.isText : Cell → Bool
  | .run [piece] => piece.isText
  | _ => false

/-- Cells with a condition that can be written, or with texts that have a property. -/
def Cell.Over (textOk : String → Prop) : Cell → Prop
  | .field condition => condition.Writable
  | .run pieces => ∀ text, .text text ∈ pieces → textOk (String.ofList text)

/-- The relation of cells that may follow each other. -/
def Cell.MayPrecede (cell next : Cell) : Prop :=
  cell.isText = true → next.isText = false

namespace Template

lemma isText_head?_cells {template : Template} (h : template.startsWithText = false) :
    ∀ cell ∈ template.cells.head?, cell.isText = false := by
  intro cell hcell
  cases template with
  | nil => cases hcell
  | text content rest => cases h
  | field condition ifTrue ifFalse rest =>
    cases hcell
    rfl

/-- In the cells of a template a text never follows a text. -/
lemma isChain_cells {template : Template} (h : template.Separated) :
    template.cells.IsChain Cell.MayPrecede := by
  induction template with
  | nil => exact .nil
  | text content rest ih =>
    obtain ⟨hstart, hrest⟩ := h
    exact List.isChain_cons.2
      ⟨fun cell hcell _ => isText_head?_cells hstart cell hcell, ih hrest⟩
  | field condition ifTrue ifFalse rest ihTrue ihFalse ihRest =>
    obtain ⟨htrue, hfalse, hrest⟩ := h
    have hmarker : ∀ (marker : Marker) (cells cells' : List Cell),
        cells.IsChain Cell.MayPrecede → cells'.IsChain Cell.MayPrecede →
          (cells ++ .run [.marker marker] :: cells').IsChain Cell.MayPrecede := by
      intro marker cells cells' hcells hcells'
      refine List.isChain_append.2 ⟨hcells, List.isChain_cons.2 ⟨?_, hcells'⟩, ?_⟩
      · intro cell _ htext
        cases htext
      · intro cell _ cell' hcell' _
        cases hcell'
        rfl
    refine List.isChain_cons.2 ⟨?_, hmarker _ _ _ (ihTrue htrue)
      (hmarker _ _ _ (ihFalse hfalse) (ihRest hrest))⟩
    intro cell _ htext
    cases htext

/-- The cells of a template are over the same texts as the template. -/
lemma Over.of_mem_cells {textOk : String → Prop} {template : Template}
    (h : template.Over textOk) {cell : Cell} (hcell : cell ∈ template.cells) :
    cell.Over textOk := by
  induction template with
  | nil => cases hcell
  | text content rest ih =>
    rcases List.mem_cons.1 hcell with rfl | hcell
    · intro text htext
      obtain rfl : text = content.toList := by simpa using htext
      rw [String.ofList_toList]
      exact h.1
    · exact ih h.2 hcell
  | field condition ifTrue ifFalse rest ihTrue ihFalse ihRest =>
    obtain ⟨hcondition, htrue, hfalse, hrest⟩ := h
    have hmarker : ∀ marker : Marker, (Cell.run [.marker marker]).Over textOk := by
      intro marker text htext
      simp at htext
    simp only [Template.cells, List.mem_cons, List.mem_append] at hcell
    rcases hcell with rfl | hcell | rfl | hcell | rfl | hcell
    · exact hcondition
    · exact ihTrue htrue hcell
    · exact hmarker .elseMarker
    · exact ihFalse hfalse hcell
    · exact hmarker .endMarker
    · exact ihRest hrest hcell

/-- Joined cells of a template are read as they are written. -/
lemma readable_of_split {template : Template} (hover : template.Over PlainText)
    (hseparated : template.Separated) {cells : List Cell}
    (h : cells.flatMap Cell.split = template.cells) : ∀ cell ∈ cells, cell.Readable := by
  intro cell hcell
  have hsub : ∀ piece ∈ cell.split, piece ∈ template.cells := by
    intro piece hpiece
    rw [← h]
    exact List.mem_flatMap.2 ⟨cell, hcell, hpiece⟩
  cases cell with
  | field condition => exact hover.of_mem_cells (hsub _ List.mem_cons_self)
  | run pieces =>
    constructor
    · have hchain := isChain_cells hseparated
      obtain ⟨before, after, rfl⟩ := List.append_of_mem hcell
      rw [← h, List.flatMap_append, List.flatMap_cons] at hchain
      have hpieces : (Cell.split (.run pieces)).IsChain Cell.MayPrecede :=
        hchain.right_of_append.left_of_append
      rw [Cell.split, List.isChain_map] at hpieces
      exact hpieces
    · intro text htext
      have hmem : Cell.run [.text text] ∈ Cell.split (.run pieces) :=
        List.mem_map_of_mem htext
      exact hover.of_mem_cells (hsub _ hmem) text List.mem_cons_self

end Template

namespace Document

/-- A document that divides a template into runs in any way shows the same fields as one with a run
for each piece, and these are the fields of the template, if and only if it is sealed. -/
theorem ifSpans_joined_iff {d d' : Document} {paragraphs paragraphs' : List (List Cell)}
    {template : Template} (hover : template.Over PlainText) (hseparated : template.Separated)
    (h : d.Displays [Tree.page paragraphs])
    (hjoined : paragraphs.flatten.flatMap Cell.split = template.cells)
    (h' : d'.Displays [Tree.page paragraphs']) (hcells : paragraphs'.flatten = template.cells) :
    ((d'.ifSpans {}).2 = [] ∧ (d'.ifSpans {}).1.map IfSpan.describe = template.fields) ∧
      (((d.ifSpans {}).2 = [] ∧
        (d.ifSpans {}).1.map IfSpan.describe = (d'.ifSpans {}).1.map IfSpan.describe) ↔
          Sealed 0 paragraphs.flatten) := by
  have hreadable := Template.readable_of_split hover hseparated hjoined
  have hcontent : template.Over ContentText := hover.imp fun _ => PlainText.contentText
  have hpage : (d'.ifSpans {}).1.map IfSpan.describe = template.fields ∧ (d'.ifSpans {}).2 = [] :=
    h'.ifSpans_page hcells hcontent rfl
  obtain ⟨hfields, hnone⟩ := hpage
  refine ⟨⟨hnone, hfields⟩, ?_⟩
  rw [hfields, h.ifSpans_iff_found hreadable, template.found_iff_sealed hjoined]

/-- A run that closes the inner field behind its only text, and one with the last text of the true
branch, the whole false branch and a text behind the outer field. -/
theorem ifSpans_joined_nested :
    let template : Template :=
      .field ⟨"a", "=", "1"⟩
        (.text "u" (.field ⟨"b", ">=", "2"⟩ (.text "v" .nil) .nil (.text "w" .nil)))
        (.text "x" .nil) (.text "y" .nil)
    let cells : List Cell :=
      [.field ⟨"a", "=", "1"⟩, .run [.text ['u']], .field ⟨"b", ">=", "2"⟩,
        .run [.text ['v'], .marker .elseMarker, .marker .endMarker],
        .run [.text ['w'], .marker .elseMarker, .text ['x'], .marker .endMarker, .text ['y']]]
    ((ofForest [Tree.page [cells]]).ifSpans {}).2 = [] ∧
      ((ofForest [Tree.page [cells]]).ifSpans {}).1.map IfSpan.describe =
        ((ofForest [Tree.page [template.cells]]).ifSpans {}).1.map IfSpan.describe := by
  intro template cells
  have hover : template.Over PlainText := by decide
  have hseparated : template.Separated := by
    simp [template, Template.Separated, Template.startsWithText]
  have hsealed : Sealed 0 [cells].flatten := by
    simp [cells, Sealed, SealedRun, Piece.depthAfter, Idle]
  obtain ⟨-, hiff⟩ := ifSpans_joined_iff hover hseparated
    (displays_ofForest [Tree.page [cells]]) rfl (displays_ofForest [Tree.page [template.cells]])
    List.flatten_singleton
  exact hiff.2 hsealed

/-- A run that closes the inner field and goes on with a text and a marker of the outer one: the
text is lost and the false branch is read as a part of the true branch. -/
theorem not_ifSpans_joined_unsealed :
    let template : Template :=
      .field ⟨"a", "=", "1"⟩ (.field ⟨"b", "=", "1"⟩ (.text "x" .nil) .nil (.text "y" .nil))
        (.text "z" .nil) .nil
    let cells : List Cell :=
      [.field ⟨"a", "=", "1"⟩, .field ⟨"b", "=", "1"⟩, .run [.text ['x']],
        .run [.marker .elseMarker], .run [.marker .endMarker, .text ['y'], .marker .elseMarker],
        .run [.text ['z']], .run [.marker .endMarker]]
    (template.Over PlainText ∧ template.Separated ∧
      cells.flatMap Cell.split = template.cells) ∧
      ¬ (((ofForest [Tree.page [cells]]).ifSpans {}).2 = [] ∧
        ((ofForest [Tree.page [cells]]).ifSpans {}).1.map IfSpan.describe =
          ((ofForest [Tree.page [template.cells]]).ifSpans {}).1.map IfSpan.describe) := by
  intro template cells
  have hover : template.Over PlainText := by decide
  have hseparated : template.Separated := by
    simp [template, Template.Separated, Template.startsWithText]
  have hsplit : [cells].flatten.flatMap Cell.split = template.cells := rfl
  have hreadable := Template.readable_of_split hover hseparated hsplit
  have hcontent : template.Over ContentText := hover.imp fun _ => PlainText.contentText
  have hfields : ((ofForest [Tree.page [template.cells]]).ifSpans {}).1.map IfSpan.describe =
      template.fields :=
    ((displays_ofForest [Tree.page [template.cells]]).ifSpans_page List.flatten_singleton hcontent
      rfl).1
  have hunsealed : ¬ Sealed 0 [cells].flatten := by
    simp [cells, Sealed, SealedRun, Piece.depthAfter, Idle]
  refine ⟨⟨hover, hseparated, rfl⟩, ?_⟩
  rw [hfields, (displays_ofForest [Tree.page [cells]]).ifSpans_iff_found hreadable,
    template.found_iff_sealed hsplit]
  exact hunsealed

end Document

end WordFields
