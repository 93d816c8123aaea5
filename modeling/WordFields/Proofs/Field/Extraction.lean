import WordFields.Proofs.Field.Placing
import WordFields.Session

/-!
# Extraction gives templates back

The IF fields that are extracted from a page with a run for each piece of a template are the fields
of this template, under either policy for `%else%` and however the cells of the template are
distributed over paragraphs.
-/

namespace WordFields

namespace Document

/-- Where the cells of a page are those of a template, the template stands in the rows of the
page. -/
lemma Displays.exists_placed {d : Document} {paragraphs : List (List Cell)} {template : Template}
    (h : d.Displays [Tree.page paragraphs]) (hcells : paragraphs.flatten = template.cells) :
    ∃ (rows : List Row) (placed : Placed), d.Sheet rows ∧ placed.template = template ∧
      placed.Stands d rows ∧ rows.flatten = placed.row ∧ rows.length = paragraphs.length := by
  obtain ⟨rows, groups, hsheet, hlaid, hgroups, hlength⟩ := h.exists_laid
  rw [hcells, ← List.append_nil template.cells] at hlaid
  obtain ⟨placed, groups', htemplate, hstands, hflatten, hrest⟩ :=
    Placed.exists_of_laid hsheet hlaid
  obtain rfl : groups' = [] := List.forall₂_nil_left_iff.1 hrest
  refine ⟨rows, placed, hsheet, htemplate, hstands, ?_, hlength⟩
  rw [← hgroups, hflatten, List.flatten_nil, List.append_nil]

/-- The fields that are read from a page are those of the template that it shows. -/
lemma Displays.ifSpans_page {d : Document} {paragraphs : List (List Cell)} {template : Template}
    {options : Options} (h : d.Displays [Tree.page paragraphs])
    (hcells : paragraphs.flatten = template.cells) (hover : template.Over ContentText)
    (hoptions : options.ifPlaceholder = shownResult) :
    (d.ifSpans options).1.map IfSpan.describe = template.fields ∧ (d.ifSpans options).2 = [] := by
  obtain ⟨rows, placed, hsheet, rfl, hstands, hrow, -⟩ := h.exists_placed hcells
  rw [Placed.ifSpans_eq hsheet hoptions hover hstands hrow]
  exact ⟨placed.describe_spans 0, rfl⟩

/-- Extraction inverts the writing of a template. -/
theorem extractFields_page {d : Document} {paragraphs : List (List Cell)} {template : Template}
    (policy : ElsePolicy) (h : d.Displays [Tree.page paragraphs])
    (hcells : paragraphs.flatten = template.cells) (hover : template.Over ContentText) :
    (d.extractFields { elsePolicy := policy }).1.ifFields = template.fields ∧
      (d.extractFields { elsePolicy := policy }).2 = [] :=
  h.ifSpans_page hcells hover rfl

/-- A field with another one in its true branch, and a text behind both, in two paragraphs. -/
theorem extractFields_page_nested :
    let template : Template :=
      .field ⟨"a", "=", "1"⟩
        (.text "x" (.field ⟨"%iftrue%", "<>", "%iffalse%"⟩ .nil (.text "y" .nil) .nil))
        .nil (.text "z" .nil)
    let paragraphs := [template.cells.take 3, template.cells.drop 3]
    ((ofForest [Tree.page paragraphs]).extractFields { elsePolicy := .toggle }).1.ifFields =
      [⟨"a", "=", "1",
        .items [.text "x", .field ⟨"%iftrue%", "<>", "%iffalse%", .items [], .text "y"⟩],
        .items []⟩] := by
  intro template paragraphs
  have hover : template.Over PlainText := by decide
  exact (extractFields_page .toggle (displays_ofForest _) rfl
    (hover.imp fun _ => PlainText.contentText)).1

end Document

end WordFields
