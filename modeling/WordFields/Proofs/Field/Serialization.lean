import WordFields.Diagnostic
import WordFields.Field.Description
import WordFields.Proofs.Json.Decoding

/-!
# JSON forms that are read back

The JSON form of a description of fields and that of a diagnostic are read back to the same value,
written with or without spaces (`ofJson_print`).  Branches and their items carry no mark of their
kind in JSON.  They are told apart by the kind of value alone, since a text is a string, a list of
items is an array and a field is an object (`Branch.ofValue?_toJson`).  A diagnostic leaves out
what is absent, and each member that is left out has the value that a reader assumes for it
(`Diagnostic.reads_toJson`).
-/

namespace WordFields

open Json

variable {layout : Layout}

/-! ## Fields -/

mutual

lemma IfField.exact_toJson : ∀ field : IfField, field.toJson.Exact
  | ⟨_, _, _, ifTrue, ifFalse⟩ =>
    ⟨trivial, trivial, trivial, ifTrue.exact_toJson, ifFalse.exact_toJson, trivial⟩

lemma Branch.exact_toJson : ∀ branch : Branch, branch.toJson.Exact
  | .text _ => trivial
  | .items items => exact_itemsToJson items

lemma exact_itemsToJson : ∀ items : List BranchItem, ItemsExact (itemsToJson items)
  | [] => trivial
  | item :: rest => ⟨item.exact_toJson, exact_itemsToJson rest⟩

lemma BranchItem.exact_toJson : ∀ item : BranchItem, item.toJson.Exact
  | .text _ => trivial
  | .field field => field.exact_toJson

end

mutual

/-- A branch is told from the kind of its value. -/
theorem Branch.ofValue?_toJson : ∀ branch : Branch, Branch.ofValue? branch.toJson = some branch
  | .text _ => rfl
  | .items items => by rw [Branch.toJson, Branch.ofValue?, itemsOfValues?_itemsToJson]; rfl

lemma itemsOfValues?_itemsToJson : ∀ items : List BranchItem,
    itemsOfValues? (itemsToJson items) = some items
  | [] => rfl
  | item :: rest => by
    rw [itemsToJson, itemsOfValues?, BranchItem.ofValue?_toJson item,
      itemsOfValues?_itemsToJson rest]

lemma BranchItem.ofValue?_toJson : ∀ item : BranchItem, BranchItem.ofValue? item.toJson = some item
  | .text _ => rfl
  | .field ⟨left, operator, right, ifTrue, ifFalse⟩ => by
    have htrue := Branch.ofValue?_toJson ifTrue
    have hfalse := Branch.ofValue?_toJson ifFalse
    simp [BranchItem.toJson, IfField.toJson, BranchItem.ofValue?, draftOfMembers?,
      IfField.Draft.isFilled, IfField.Draft.complete, htrue, hfalse]

end

lemma reads_branch (layout : Layout) (branch : Branch) :
    (Decoder.ofValue Branch.ofValue?).Reads layout branch.toJson branch :=
  .ofValue branch.ofValue?_toJson branch.exact_toJson

lemma IfField.reads_toJson (layout : Layout) (field : IfField) :
    reader.decoder.Reads layout field.toJson field := by
  obtain ⟨left, operator, right, ifTrue, ifFalse⟩ := field
  have hleft := RecordReader.Fills.single reader "left"
    (fun value => ⟨value, none, none, none, none⟩) rfl rfl rfl (.string layout left)
  have hoperator := RecordReader.Fills.single reader "operator"
    (fun value => ⟨some left, value, none, none, none⟩) rfl rfl rfl (.string layout operator)
  have hright := RecordReader.Fills.single reader "right"
    (fun value => ⟨some left, some operator, value, none, none⟩) rfl rfl rfl
    (.string layout right)
  have htrue := RecordReader.Fills.single reader "ifTrue"
    (fun value => ⟨some left, some operator, some right, value, none⟩) rfl rfl rfl
    (reads_branch layout ifTrue)
  have hfalse := RecordReader.Fills.single reader "ifFalse"
    (fun value => ⟨some left, some operator, some right, some ifTrue, value⟩) rfl rfl rfl
    (reads_branch layout ifFalse)
  exact (hleft.append (hoperator.append (hright.append (htrue.append hfalse)))).reads rfl

lemma reads_strings (layout : Layout) (texts : List String) :
    (Decoder.list Decoder.string).Reads layout (.array (texts.map .string)) texts :=
  .list_map (.string layout) (fun _ => trivial) texts

lemma FieldList.reads_toJson (layout : Layout) (fields : FieldList) :
    reader.decoder.Reads layout fields.toJson fields := by
  obtain ⟨mergeFields, ifFields⟩ := fields
  have hfields : (Decoder.list IfField.reader.decoder).Reads layout
      (.array (ifFields.map IfField.toJson)) ifFields :=
    .list_map (IfField.reads_toJson layout) IfField.exact_toJson ifFields
  have hmerge := RecordReader.Fills.single reader "mergeFields"
    (fun value => ⟨value, none⟩) rfl rfl rfl (reads_strings layout mergeFields)
  have hif := RecordReader.Fills.single reader "ifFields"
    (fun value => ⟨some mergeFields, value⟩) rfl rfl rfl hfields
  exact (hmerge.append hif).reads rfl

/-! ## Diagnostics -/

namespace Diagnostic

/-- A text that may be absent fills its field if it is there.  `set` gives the draft with that
field as it is set. -/
lemma fills_textMember (key : String) (set : Option (Option String) → Draft)
    (hkey : reader.fields.contains key = true) (hnew : (set none).isFilled key = false)
    (hfill : (set none).fill key =
      (Decoder.optional Decoder.string).map fun value => set (some value))
    (layout : Layout) (value : Option String) :
    reader.Fills layout (set none) (textMember key value) (set (value.map some)) := by
  cases value with
  | none => exact .nil _
  | some text =>
    exact .single reader key set hkey hnew hfill
      (.optional (.string layout text) trivial nofun)

/-- How a list is read that is left out when it is empty. -/
def listPart (values : List String) : Option (List String) :=
  if values.isEmpty then none else some values

lemma fills_listMember (key : String) (set : Option (List String) → Draft)
    (hkey : reader.fields.contains key = true) (hnew : (set none).isFilled key = false)
    (hfill : (set none).fill key =
      (Decoder.list Decoder.string).map fun value => set (some value))
    (layout : Layout) (values : List String) :
    reader.Fills layout (set none) (listMember key values) (set (listPart values)) := by
  cases values with
  | nil => exact .nil _
  | cons value values =>
    exact .single reader key set hkey hnew hfill (reads_strings layout (value :: values))

lemma fills_run (set : Option (Option Nat) → Draft) (hnew : (set none).isFilled "run_index" = false)
    (hfill : (set none).fill "run_index" =
      (Decoder.optional Decoder.natural).map fun value => set (some value))
    (layout : Layout) {run : Option Nat} (hrun : ∀ n ∈ run, n < Numeral.wordLimit) :
    reader.Fills layout (set none) (run.toList.map fun run => ("run_index", ofNat run))
      (set (run.map some)) := by
  cases run with
  | none => exact .nil _
  | some run =>
    have hrun := hrun run rfl
    exact .single reader "run_index" set rfl hnew hfill
      (.optional (.natural layout hrun) (exact_ofNat hrun) nofun)

lemma reads_severity (layout : Layout) (severity : Severity) :
    (Decoder.choice Severity.names).Reads layout (.string severity.name) severity :=
  .choice (by cases severity <;> rfl)

/-- What a draft is completed to whose fields are those that a diagnostic has. -/
lemma complete_parts (severity : Severity) (title : String) (code problem : Option String)
    (details hints : List String) (run : Option Nat) :
    Draft.complete
      ⟨code.map some, some title, some severity, problem.map some, listPart details,
        listPart hints, run.map some⟩ =
      some ⟨severity, title, code, problem, details, hints, run⟩ := by
  cases code <;> cases problem <;> cases details <;> cases hints <;> cases run <;> rfl

theorem reads_toJson (layout : Layout) (d : Diagnostic)
    (hrun : ∀ run ∈ d.run, run < Numeral.wordLimit) : reader.decoder.Reads layout d.toJson d := by
  obtain ⟨severity, title, code, problem, details, hints, run⟩ := d
  have hcode := fills_textMember "code"
    (fun value => ⟨value, none, none, none, none, none, none⟩) rfl rfl rfl layout code
  have htitle := RecordReader.Fills.single reader "title"
    (fun value => ⟨code.map some, value, none, none, none, none, none⟩) rfl rfl rfl
    (.string layout title)
  have hkind := RecordReader.Fills.single reader "kind"
    (fun value => ⟨code.map some, some title, value, none, none, none, none⟩) rfl rfl rfl
    (reads_severity layout severity)
  have hproblem := fills_textMember "problem"
    (fun value => ⟨code.map some, some title, some severity, value, none, none, none⟩) rfl rfl rfl
    layout problem
  have hdetails := fills_listMember "details"
    (fun value => ⟨code.map some, some title, some severity, problem.map some, value, none, none⟩)
    rfl rfl rfl layout details
  have hhints := fills_listMember "hints"
    (fun value => ⟨code.map some, some title, some severity, problem.map some, listPart details,
      value, none⟩) rfl rfl rfl layout hints
  have hindex := fills_run (fun value => ⟨code.map some, some title, some severity,
    problem.map some, listPart details, listPart hints, value⟩) rfl rfl layout hrun
  have hfills := hcode.append (htitle.append (hkind.append (hproblem.append (hdetails.append
    (hhints.append hindex)))))
  have hmembers : toJson ⟨severity, title, code, problem, details, hints, run⟩ =
      .object (textMember "code" code ++ ([("title", .string title)] ++
        ([("kind", .string severity.name)] ++ (textMember "problem" problem ++
          (listMember "details" details ++ (listMember "hints" hints ++
            run.toList.map fun run => ("run_index", ofNat run))))))) := by
    simp [toJson]
  rw [hmembers]
  exact hfills.reads (complete_parts severity title code problem details hints run)

lemma nesting_of_mem_textMember {key : String} {value : Option String} {member : String × Json}
    (h : member ∈ textMember key value) : member.2.nesting ≤ 1 := by
  obtain ⟨text, -, rfl⟩ := List.mem_map.1 h
  exact Nat.zero_le 1

lemma nesting_of_mem_listMember {key : String} {values : List String} {member : String × Json}
    (h : member ∈ listMember key values) : member.2.nesting ≤ 1 := by
  unfold listMember at h
  split_ifs at h
  · cases h
  · rw [List.mem_singleton.1 h, nesting, Nat.add_le_add_iff_right, itemsNesting_le_iff]
    intro value hvalue
    obtain ⟨text, -, rfl⟩ := List.mem_map.1 hvalue
    exact Nat.le_refl 0

lemma nesting_toJson_le (d : Diagnostic) : d.toJson.nesting ≤ 2 := by
  rw [toJson, nesting, Nat.add_le_add_iff_right, membersNesting_le_iff]
  intro member hmember
  simp only [List.mem_append, List.mem_cons, List.not_mem_nil, or_false] at hmember
  rcases hmember with ((((hcode | rfl | rfl) | hproblem) | hdetails) | hhints) | hrun
  · exact nesting_of_mem_textMember hcode
  · exact Nat.zero_le 1
  · exact Nat.zero_le 1
  · exact nesting_of_mem_textMember hproblem
  · exact nesting_of_mem_listMember hdetails
  · exact nesting_of_mem_listMember hhints
  · obtain ⟨run, -, rfl⟩ := List.mem_map.1 hrun
    exact Nat.zero_le 1

end Diagnostic

/-- The JSON form of a description of fields, however it is laid out, is read back as the same
description unless more brackets are around one of its parts than a reader follows; and that of a
diagnostic is read back as the same diagnostic, where the run is a number of 64 bits. -/
theorem ofJson_print (layout : Layout) :
    (∀ fields : FieldList, fields.toJson.nesting < depthLimit →
      FieldList.ofJson (fields.toJson.print layout) = .ok fields) ∧
      ∀ d : Diagnostic, (∀ run ∈ d.run, run < Numeral.wordLimit) →
        Diagnostic.ofJson (d.toJson.print layout) = .ok d := by
  constructor
  · intro fields hnesting
    exact (fields.reads_toJson layout).decode hnesting
  · intro d hrun
    have hnesting : d.toJson.nesting < depthLimit :=
      Nat.lt_of_le_of_lt d.nesting_toJson_le (by decide)
    exact (d.reads_toJson layout hrun).decode hnesting

/-- A field with an empty branch and a field in the other one, and a diagnostic with a code and a
run. -/
theorem ofJson_print_nested :
    let inner : IfField := ⟨"b", "<>", "\"2\"", .text "é\n", .items []⟩
    let fields : FieldList :=
      ⟨["step.name"], [⟨"a", "=", "1", .items [.text "x", .field inner], .items [.text "y"]⟩]⟩
    let d : Diagnostic :=
      { severity := .warning, title := "t", code := some "F-1-1", run := some 3 }
    fields.toJson.nesting < depthLimit ∧
      FieldList.ofJson (fields.toJson.print .indented) = .ok fields ∧
      (∀ run ∈ d.run, run < Numeral.wordLimit) ∧
      Diagnostic.ofJson (d.toJson.print .compact) = .ok d := by
  intro inner fields d
  have hnesting : fields.toJson.nesting < depthLimit := by decide
  have hrun : ∀ run ∈ d.run, run < Numeral.wordLimit := by
    rintro run ⟨⟩
    decide
  exact ⟨hnesting, (ofJson_print .indented).1 fields hnesting, hrun,
    (ofJson_print .compact).2 d hrun⟩

end WordFields
