import WordFields.Proofs.Field.Mirroring
import WordFields.Proofs.Field.Rereading
import WordFields.Session

/-!
# The two passes one after the other

Processing a document with both passes is processing it with the one and then processing what is
written with the other, if quotes pair up in every start tag after the substitutions
(`processDocument_compose`).  The second pass then runs on a document with the same trees as the one
in memory, so it does the same (`processIfFields_of_displays`).

Where quotes do not pair up, other trees are read, and the second pass can find a field in what was
a comment (`not_processDocument_compose_quoted`).
-/

namespace WordFields

namespace Document

open Markup

variable {d d' : Document}

/-- A pass over IF fields leaves the document node alone. -/
lemma kind_root_processIfFields (hd : d.WellFormed) (hroot : d.kind root = .document)
    (context : DataContext) (options : Options) :
    (d.processIfFields context options).document.kind root = .document := by
  rw [processIfFields_document]
  rcases (pruned_edits hd (d.ifEdits context options)).kind_eq root with
    hsame | ⟨-, text, -, htext, -⟩
  · exact hsame.trans hroot
  · rw [hroot] at htext
    cases htext

/-- A pass over IF fields does the same to documents with the same trees. -/
theorem processIfFields_of_displays {trees : List Tree} (hd : d.Displays trees)
    (hd' : d'.Displays trees) (hroot : d.parent root = none) (hroot' : d'.parent root = none)
    (context : DataContext) (options options' : Options)
    (hpolicy : options'.elsePolicy = options.elsePolicy) :
    let pass := d.processIfFields context options
    let pass' := d'.processIfFields context options'
    pass'.count = pass.count ∧ pass'.diagnostics = pass.diagnostics ∧
      pass'.document.toMarkup = pass.document.toMarkup := by
  intro pass pass'
  have h := Twins.mirrors hd hd' hroot hroot'
  have hafter : Mirrors pass.document pass'.document (Twins d d') (fun _ => False) True :=
    h.processIfFields hpolicy context (.inl trivial)
  obtain ⟨trees', hdisplays, hdisplays'⟩ :=
    hafter.exists_displays (kind_root_processIfFields hd.wellFormed hd.shows_root.kind_eq context
      options)
  exact ⟨h.count_eq hpolicy context, h.diagnostics_eq hpolicy context,
    hdisplays.toMarkup_eq hdisplays'⟩

/-- What is written after substitutions in a document that has been read is read as a document with
the same trees, if it is read at all and quotes pair up in every start tag. -/
theorem Substituted.exists_displays {options : Options} {targets : List (NodeId × String)}
    (h : Substituted d d' options targets) {text : String} (hparse : parse text = .ok d)
    (hsealed : ∀ id ∈ d'.descendants root, d'.SealedAt id) {read : Document}
    (hread : parse d'.toMarkup = .ok read) :
    ∃ trees, d'.Displays trees ∧ read.Displays trees ∧ d'.parent root = none ∧
      read.parent root = none := by
  obtain ⟨content, hdrafts, hdisplays, hroot⟩ := h.exists_drafts hparse
  rw [parse, toMarkup, String.toList_ofList, toChars_eq hdisplays] at hread
  have hevents := (forall_sealedAt_iff hdisplays).1 hsealed
  have hbuilds := hdrafts.builds_of_sealed hevents hread
  have hsame := hbuilds.parseChars_eq hevents (hbuilds.proper_of_parseChars hevents hread)
  obtain rfl : ofForest (content.trees []) = read := Except.ok.inj (hsame.symm.trans hread)
  exact ⟨content.trees [], hdisplays, hbuilds.displays, hroot, parent_root_ofForest _⟩

/-- Substitution depends on the placeholder and on whether comments are wanted. -/
lemma processMergeFields_congr {options options' : Options}
    (hplaceholder : options'.placeholder = options.placeholder)
    (hcomments : options'.mergeComments = options.mergeComments) :
    d.processMergeFields options' = d.processMergeFields options := by
  have hstep : mergeStep options' = mergeStep options := by
    funext runs result field
    simp only [mergeStep, substitute, hplaceholder, hcomments]
  rw [processMergeFields, processMergeFields, hstep]

/-! ## Whole documents -/

/-- What the pass over merge fields gives if the options enable it. -/
def mergePass (d : Document) (options : Options) : PassResult :=
  if options.mergeFields then d.processMergeFields options else ⟨d, 0, []⟩

/-- What the pass over IF fields gives if the options enable it. -/
def ifPass (d : Document) (context : DataContext) (options : Options) : PassResult :=
  if options.ifFields then d.processIfFields context options else ⟨d, 0, []⟩

end Document

open Document Markup

/-- Markup that can be read is processed by the passes that the options enable, one after the
other. -/
lemma processDocument_eq {xml : String} {d : Document} (hparse : parse xml = .ok d)
    (context : DataContext) (options : Options) :
    processDocument xml context options =
      .ok ⟨((d.mergePass options).document.ifPass context options).document.toMarkup,
        (d.mergePass options).diagnostics ++
          ((d.mergePass options).document.ifPass context options).diagnostics⟩ := by
  rw [processDocument, Session.start, hparse]
  simp only [mergePass, ifPass]
  cases options.mergeFields <;> cases options.ifFields <;>
    simp [Session.merge, Session.prune, Session.after]

/-- Only markup that can be read is processed. -/
lemma exists_parse_of_processDocument {xml : String} {context : DataContext} {options : Options}
    {processed : Processed} (h : processDocument xml context options = .ok processed) :
    ∃ d, parse xml = .ok d := by
  rw [processDocument, Session.start] at h
  cases hparse : parse xml with
  | ok d => exact ⟨d, rfl⟩
  | error e =>
    rw [hparse] at h
    cases h

/-- Processing with both passes is processing with the one and processing the result with the
other, if quotes pair up in every start tag after the first one. -/
theorem processDocument_compose {xml : String} {d : Document} (hparse : parse xml = .ok d)
    (context : DataContext) (options : Options)
    (hsealed : ∀ id ∈ (d.processMergeFields options).document.descendants root,
      (d.processMergeFields options).document.SealedAt id)
    {first second : Processed}
    (hfirst : processDocument xml context { options with mergeFields := true, ifFields := false } =
      .ok first)
    (hsecond : processDocument first.xml context
      { options with mergeFields := false, ifFields := true } = .ok second) :
    processDocument xml context { options with mergeFields := true, ifFields := true } =
      .ok ⟨second.xml, first.diagnostics ++ second.diagnostics⟩ := by
  set merged := d.processMergeFields options with hmerged
  have hpass : ∀ ifFields : Bool,
      d.mergePass { options with mergeFields := true, ifFields := ifFields } = merged := fun _ =>
    processMergeFields_congr rfl rfl
  have hsubstituted : Substituted d merged.document options
      (mergeTargets options d d.mergeFields) :=
    hmerged ▸ processMergeFields_document d options ▸
      substituted_mergeTargets (wellFormed_of_parse hparse) options d.mergeFields
  rw [processDocument_eq hparse, hpass] at hfirst
  obtain rfl : ⟨merged.document.toMarkup, merged.diagnostics ++ []⟩ = first :=
    Except.ok.inj hfirst
  obtain ⟨read, hread⟩ := exists_parse_of_processDocument hsecond
  obtain ⟨trees, hdisplays, hdisplays', hroot, hroot'⟩ :=
    hsubstituted.exists_displays hparse hsealed hread
  obtain ⟨-, hdiagnostics, hmarkup⟩ := processIfFields_of_displays hdisplays hdisplays' hroot hroot'
    context { options with mergeFields := true, ifFields := true }
    { options with mergeFields := false, ifFields := true } rfl
  rw [processDocument_eq hread] at hsecond
  obtain rfl := Except.ok.inj hsecond
  rw [processDocument_eq hparse, hpass]
  simp only [mergePass, ifPass, if_true, if_false, Bool.false_eq_true, List.append_nil,
    List.nil_append, hdiagnostics, hmarkup]

/-! ## A page with a field of each kind -/

namespace Document

/-- The instruction of the fields below. -/
def conditionalInstruction : String :=
  "IF \"a\" = \"1\" \"%iftrue%\" \"%iffalse%\""

/-- The nodes of a field in a paragraph that is node 1, from some handle on. -/
def fieldNodes (first : NodeId) (instruction : String) : List Node :=
  [⟨.element (.word "r" []), some 1, [first + 1]⟩,
    ⟨.element (.word "fldChar" [FieldMark.attribute .beginning]), some first, []⟩,
    ⟨.element (.word "r" []), some 1, [first + 3]⟩,
    ⟨.element (.word "instrText" []), some (first + 2), [first + 4]⟩,
    ⟨.text instruction, some (first + 3), []⟩,
    ⟨.element (.word "r" []), some 1, [first + 6]⟩,
    ⟨.element (.word "fldChar" [FieldMark.attribute .separator]), some (first + 5), []⟩,
    ⟨.element (.word "r" []), some 1, [first + 8]⟩,
    ⟨.element (.word "t" []), some (first + 7), [first + 9]⟩,
    ⟨.text "y", some (first + 8), []⟩, ⟨.element (.word "r" []), some 1, [first + 11]⟩,
    ⟨.element (.word "fldChar" [FieldMark.attribute .ending]), some (first + 10), []⟩]

/-- The nodes of a run with both branches of a field, from some handle on. -/
def branchNodes (first : NodeId) : List Node :=
  [⟨.element (.word "r" []), some 1, [first + 1]⟩,
    ⟨.element (.word "t" []), some first, [first + 2]⟩,
    ⟨.text "y%else%n%end%", some (first + 1), []⟩]

def twoFieldsMarkup : String := Text.concat
  ["<w:p xmlns:w=\"http://schemas.openxmlformats.org/wordprocessingml/2006/main\">",
    "<w:r><w:fldChar w:fldCharType=\"begin\"/></w:r>",
    "<w:r><w:instrText>MERGEFIELD x</w:instrText></w:r>",
    "<w:r><w:fldChar w:fldCharType=\"separate\"/></w:r><w:r><w:t>y</w:t></w:r>",
    "<w:r><w:fldChar w:fldCharType=\"end\"/></w:r>",
    "<w:r><w:fldChar w:fldCharType=\"begin\"/></w:r>",
    "<w:r><w:instrText>IF \"a\" = \"1\" \"%iftrue%\" \"%iffalse%\"</w:instrText></w:r>",
    "<w:r><w:fldChar w:fldCharType=\"separate\"/></w:r><w:r><w:t>y</w:t></w:r>",
    "<w:r><w:fldChar w:fldCharType=\"end\"/></w:r>",
    "<w:r><w:t>y%else%n%end%</w:t></w:r></w:p>"]

/-- A page with a merge field and an IF field. -/
def twoFieldsPage : Document :=
  ⟨(⟨.document, none, [1]⟩ ::
    ⟨.element (.word "p" [wordDeclaration]), some 0, [2, 4, 7, 9, 12, 14, 16, 19, 21, 24, 26]⟩ ::
    (fieldNodes 2 "MERGEFIELD x" ++ fieldNodes 14 conditionalInstruction ++
      branchNodes 26)).toArray⟩

lemma parse_twoFieldsMarkup : parse twoFieldsMarkup = .ok twoFieldsPage :=
  parse_concat [_, _, _, _, _, _, _, _, _, _] (by decide +kernel)

lemma mergeFields_twoFieldsPage : twoFieldsPage.mergeFields = [⟨5, some "x"⟩] := by
  rfl

/-- The merge field is substituted, quotes pair up afterwards and the result can be read again, and
the IF field is applied. -/
lemma processed_twoFieldsPage :
    let merged := twoFieldsPage.processMergeFields {}
    merged.count = 1 ∧
      ((merged.document.descendants root).all fun id => decide (merged.document.SealedAt id)) =
        true ∧
      (parse merged.document.toMarkup).isOk = true ∧
      (merged.document.processIfFields ⟨.object [("a", .string "1")]⟩ {}).count = 1 := by
  simp only [parse, toMarkup, String.toList_ofList, processMergeFields, mergeFields_twoFieldsPage]
  decide +kernel

lemma sealedAt_twoFieldsPage :
    ∀ id ∈ (twoFieldsPage.processMergeFields {}).document.descendants root,
      (twoFieldsPage.processMergeFields {}).document.SealedAt id := fun id hid =>
  of_decide_eq_true (List.all_eq_true.1 processed_twoFieldsPage.2.1 id hid)

lemma exists_parse_twoFieldsPage :
    ∃ d', parse (twoFieldsPage.processMergeFields {}).document.toMarkup = .ok d' := by
  have hok := processed_twoFieldsPage.2.2.1
  cases hparse : parse (twoFieldsPage.processMergeFields {}).document.toMarkup with
  | ok d' => exact ⟨d', rfl⟩
  | error _ =>
    simp only [hparse] at hok
    cases hok

end Document

/-- The merge field of the page is substituted, and then the IF field is applied to what is read
again. -/
theorem processDocument_compose_twoFields :
    let context : DataContext := ⟨.object [("a", .string "1")]⟩
    let merged := twoFieldsPage.processMergeFields {}
    parse twoFieldsMarkup = .ok twoFieldsPage ∧ merged.count = 1 ∧
      (∀ id ∈ merged.document.descendants root, merged.document.SealedAt id) ∧
      (merged.document.processIfFields context {}).count = 1 ∧
      ∃ first second,
        processDocument twoFieldsMarkup context { mergeFields := true, ifFields := false } =
          .ok first ∧
        processDocument first.xml context { mergeFields := false, ifFields := true } =
          .ok second ∧
        processDocument twoFieldsMarkup context { mergeFields := true, ifFields := true } =
          .ok ⟨second.xml, first.diagnostics ++ second.diagnostics⟩ := by
  intro context merged
  obtain ⟨read, hread⟩ := exists_parse_twoFieldsPage
  have hfirst := processDocument_eq parse_twoFieldsMarkup context
    { mergeFields := true, ifFields := false }
  have hsecond := processDocument_eq hread context { mergeFields := false, ifFields := true }
  obtain ⟨hcount, -, -, hcount'⟩ := processed_twoFieldsPage
  exact ⟨parse_twoFieldsMarkup, hcount, sealedAt_twoFieldsPage, hcount', _, _, hfirst, hsecond,
    processDocument_compose parse_twoFieldsMarkup context {} sealedAt_twoFieldsPage hfirst hsecond⟩

namespace Document

/-! ## An IF field in a comment -/

/-- A comment with an IF field, behind what would be the end of a start tag. -/
def commentedMarkup : String := Text.concat
  ["<w:p xmlns:w=\"http://schemas.openxmlformats.org/wordprocessingml/2006/main\"",
    " k'='=\"' l\"='w'><!--'=\"\"><w:r><w:fldChar w:fldCharType=\"begin\"/></w:r>",
    "<w:r><w:instrText>IF \"a\" = \"1\" \"%iftrue%\" \"%iffalse%\"</w:instrText></w:r>",
    "<w:r><w:fldChar w:fldCharType=\"separate\"/></w:r><w:r><w:t>y</w:t></w:r>",
    "<w:r><w:fldChar w:fldCharType=\"end\"/></w:r><w:r><w:t>y%else%n%end%</w:t></w:r>",
    "--></w:p>"]

/-- What is in the comment. -/
def commentedField : String :=
  "'=\"\"><w:r><w:fldChar w:fldCharType=\"begin\"/></w:r><w:r><w:instrText>IF \"a\" = \"1\" \"%iftrue%\" \"%iffalse%\"</w:instrText></w:r><w:r><w:fldChar w:fldCharType=\"separate\"/></w:r><w:r><w:t>y</w:t></w:r><w:r><w:fldChar w:fldCharType=\"end\"/></w:r><w:r><w:t>y%else%n%end%</w:t></w:r>"

/-- What is read when the page with this comment is written. -/
def uncoveredPage : Document :=
  ⟨(⟨.document, none, [1]⟩ ::
    ⟨.element (quotedElement [⟨⟨none, "><!--'"⟩, none, ""⟩]), some 0, [2, 4, 7, 9, 12, 14, 17]⟩ ::
    (fieldNodes 2 conditionalInstruction ++ branchNodes 14 ++
      [⟨.text "-->", some 1, []⟩])).toArray⟩

set_option maxRecDepth 2000 in
lemma parse_commentedMarkup : parse commentedMarkup = .ok (quotedPage commentedField) :=
  parse_concat [_, _, _, _, _, _] rfl

set_option maxRecDepth 2000 in
lemma parse_toMarkup_commentedField :
    parse (quotedPage commentedField).toMarkup = .ok uncoveredPage := by
  refine parse_toMarkup_quotedPage String.toList_ofList ?_
  repeat rw [String.toList_ofList]
  rfl

lemma mergePass_commentedField (options : Options) :
    (quotedPage commentedField).mergePass options = ⟨quotedPage commentedField, 0, []⟩ := by
  rw [mergePass]
  split <;> rfl

lemma ifPass_commentedField (context : DataContext) (options : Options) :
    (quotedPage commentedField).ifPass context options = ⟨quotedPage commentedField, 0, []⟩ := by
  rw [ifPass]
  split <;> rfl

lemma toChars_uncoveredPage :
    (uncoveredPage.processIfFields ⟨.object [("a", .string "1")]⟩
        { mergeFields := false, ifFields := true }).document.toChars ≠
      (quotedPage commentedField).toChars := by
  decide +kernel

end Document

/-- Both passes leave the page as it is, while the second one applies a field to what is read when
the first one has written it. -/
theorem not_processDocument_compose_quoted :
    let context : DataContext := ⟨.object [("a", .string "1")]⟩
    ∃ first second,
      processDocument commentedMarkup context { mergeFields := true, ifFields := false } =
        .ok first ∧
      processDocument first.xml context { mergeFields := false, ifFields := true } = .ok second ∧
      processDocument commentedMarkup context { mergeFields := true, ifFields := true } ≠
        .ok ⟨second.xml, first.diagnostics ++ second.diagnostics⟩ := by
  intro context
  have hfirst := processDocument_eq parse_commentedMarkup context
    { mergeFields := true, ifFields := false }
  have hboth := processDocument_eq parse_commentedMarkup context
    { mergeFields := true, ifFields := true }
  simp only [mergePass_commentedField, ifPass_commentedField] at hfirst hboth
  have hsecond := processDocument_eq parse_toMarkup_commentedField context
    { mergeFields := false, ifFields := true }
  simp only [mergePass, ifPass, if_true, if_false, Bool.false_eq_true] at hsecond
  refine ⟨_, _, hfirst, hsecond, fun hsame => ?_⟩
  rw [hboth, Except.ok.injEq, Processed.mk.injEq] at hsame
  exact toChars_uncoveredPage (String.ofList_injective hsame.1).symm

end WordFields
