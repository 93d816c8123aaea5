import WordFields.Proofs.Field.Recording
import WordFields.Proofs.Markup.FixedPoint
import WordFields.Proofs.Word.Twin

/-!
# A pass over merge fields repeated after reading again

A second pass does nothing and reports what the first one did.  If the document is written and read
again in between, a pass does nothing either, exactly if quotes pair up in every start tag
(`Document.SealedAt`): the reader then finds the trees that were written, with every path recorded
where it was (`Settled.of_displays`).

Where quotes do not pair up, other trees are found, and what was in a comment can be a field.
-/

namespace WordFields

namespace Document

open Markup

variable {d d' : Document}

/-- What is settled is settled in every document with the same trees. -/
theorem Settled.of_displays (h : d.Settled) {trees : List Tree} (hd : d.Displays trees)
    (hd' : d'.Displays trees) (hroot : d.parent root = none) (hroot' : d'.parent root = none) :
    d'.Settled := by
  have halike := Twins.alike hd hd' hroot hroot'
  intro field' hfield' element' path hplace'
  obtain ⟨field, hfield, hinstruction, hpath⟩ :
      ∃ field ∈ d.mergeFields, Twins d d' field.instruction field'.instruction ∧
        field'.path = field.path := by
    obtain ⟨i, hi, rfl⟩ := List.getElem_of_mem hfield'
    have hlength := halike.mergeFields.length_eq
    exact ⟨_, List.getElem_mem (hlength ▸ hi), halike.mergeFields.get (hlength ▸ hi) hi⟩
  rcases halike.mergePlace hinstruction hpath (isWord_of_mem_mergeFields hfield) with
    ⟨diagnostic, -, herror⟩ | ⟨element, element'', path', hplace, hsame, htwins⟩
  · rw [herror] at hplace'
    cases hplace'
  · rw [hsame] at hplace'
    cases hplace'
    have hrecorded := h field hfield element path hplace
    rw [attribute?, element?] at hrecorded ⊢
    rwa [htwins.kind_eq hd hd']

/-- A pass that counts nothing changes nothing. -/
lemma document_eq_of_count {options : Options} (h : (d.processMergeFields options).count = 0) :
    (d.processMergeFields options).document = d := by
  have hcount := (foldl_mergeStep options d.runs d.mergeFields ⟨d, 0, []⟩).2.1
  rw [Nat.zero_add] at hcount
  have hnil : mergeTargets options d d.mergeFields = [] :=
    List.eq_nil_of_length_eq_zero (hcount.symm.trans h)
  rw [processMergeFields_document, hnil]
  rfl

/-- Substitutions make of a document that has been read one that displays the trees of markup. -/
lemma Substituted.exists_drafts {options : Options} {targets : List (NodeId × String)}
    (h : Substituted d d' options targets) {text : String} (hparse : parse text = .ok d) :
    ∃ content : Content, content.Drafts (ofForest (content.trees [])) ∧
      d'.Displays (content.trees []) ∧ d'.parent root = none := by
  obtain ⟨content, hbuilds, -⟩ := exists_content hparse
  have hdisplays := hbuilds.displays
  have hkind : d.kind root = .document := hdisplays.shows_root.kind_eq
  have hroot : root ∉ targets.map Prod.fst := by
    intro hmem
    obtain ⟨e, he⟩ := exists_element_of_isWord (h.isWord root hmem)
    rw [hkind] at he
    cases he
  have hlt : root < d.size := hbuilds.eq_ofForest ▸ root_lt_size_ofForest _
  have hparent : d.parent root = none := hbuilds.eq_ofForest ▸ parent_root_ofForest _
  obtain ⟨content', hfilled, hshows⟩ := h.exists_filled hdisplays.shows_root.forest
    (h.children_eq root hroot) fun x hx hge => by
      obtain ⟨-, target, -, -, hcomment⟩ := h.children_new root hroot x hx hge
      exact ⟨target.2, hcomment⟩
  refine ⟨content', hfilled.drafts hbuilds, ⟨h.wellFormed, .intro ?_ hshows⟩, ?_⟩
  · rw [h.kind_eq root hlt hroot, hkind]
  · rw [h.parent_eq hdisplays.wellFormed hlt fun top htop => ?_, hparent]
    rw [hparent] at htop
    cases htop

/-- Substituting merge fields is idempotent: a second pass changes nothing and reports the same.  If
a document that has been read is written and read again before it, as far as it can be read, this is
so exactly if quotes pair up in every start tag. -/
theorem processMergeFields_idempotent (hd : d.WellFormed) (hbare : d.BareTexts)
    (hagree : d.MergesAgree) (options : Options) :
    let first := d.processMergeFields options
    first.document.processMergeFields options = ⟨first.document, 0, first.diagnostics⟩ ∧
      ∀ text, parse text = .ok d →
        ((∀ d', parse first.document.toMarkup = .ok d' →
            (d'.processMergeFields options).count = 0 ∧
              (d'.processMergeFields options).document.toMarkup = first.document.toMarkup) ↔
          ((∃ d', parse first.document.toMarkup = .ok d') →
            ∀ id ∈ first.document.descendants root, first.document.SealedAt id)) := by
  intro first
  refine ⟨processMergeFields_twice hd hbare hagree options, fun text htext => ?_⟩
  have h : Substituted d first.document options (mergeTargets options d d.mergeFields) :=
    processMergeFields_document d options ▸ substituted_mergeTargets hd options d.mergeFields
  obtain ⟨content, hdrafts, hdisplays, hroot⟩ := h.exists_drafts htext
  have hparse : parse first.document.toMarkup =
      parseChars (content.events.flatMap Event.markup) := by
    rw [parse, toMarkup, String.toList_ofList, toChars_eq hdisplays]
  rw [hparse]
  constructor
  · rintro hall ⟨d', hd'⟩
    obtain ⟨hcount, hmarkup⟩ := hall d' hd'
    rw [document_eq_of_count hcount] at hmarkup
    have hwritten : d'.toChars = content.events.flatMap Event.markup := by
      rw [← toChars_eq hdisplays]
      exact String.ofList_injective hmarkup
    exact (forall_sealedAt_iff hdisplays).2 (hdrafts.sealed_of_parseChars hd' hwritten)
  · intro hsealed d' hd'
    have hevents := (forall_sealedAt_iff hdisplays).1 (hsealed ⟨d', hd'⟩)
    have hbuilds := hdrafts.builds_of_sealed hevents hd'
    have hsame := hbuilds.parseChars_eq hevents (hbuilds.proper_of_parseChars hevents hd')
    obtain rfl : ofForest (content.trees []) = d' := Except.ok.inj (hsame.symm.trans hd')
    have hsettled := (settled_processMergeFields hd hbare hagree options).of_displays hdisplays
      hbuilds.displays hroot (parent_root_ofForest _)
    rw [hsettled.processMergeFields_eq]
    refine ⟨rfl, ?_⟩
    rw [toMarkup, toMarkup, toChars_eq hdisplays, toChars_eq hbuilds.displays]

/-! ## A path with hyphens -/

/-- The nodes of a merge field in a paragraph that is node 1, from handle 2 on. -/
def mergeNodes (instruction : String) : List Node :=
  [⟨.element (.word "r" []), some 1, [3]⟩,
    ⟨.element (.word "fldChar" [FieldMark.attribute .beginning]), some 2, []⟩,
    ⟨.element (.word "r" []), some 1, [5]⟩, ⟨.element (.word "instrText" []), some 4, [6]⟩,
    ⟨.text instruction, some 5, []⟩, ⟨.element (.word "r" []), some 1, [8]⟩,
    ⟨.element (.word "fldChar" [FieldMark.attribute .separator]), some 7, []⟩,
    ⟨.element (.word "r" []), some 1, [10]⟩, ⟨.element (.word "t" []), some 9, [11]⟩,
    ⟨.text "y", some 10, []⟩, ⟨.element (.word "r" []), some 1, [13]⟩,
    ⟨.element (.word "fldChar" [FieldMark.attribute .ending]), some 12, []⟩]

def hyphenMarkup : String := Text.concat
  ["<w:p xmlns:w=\"http://schemas.openxmlformats.org/wordprocessingml/2006/main\">",
    "<w:r><w:fldChar w:fldCharType=\"begin\"/></w:r>",
    "<w:r><w:instrText>MERGEFIELD a--b</w:instrText></w:r>",
    "<w:r><w:fldChar w:fldCharType=\"separate\"/></w:r><w:r><w:t>y</w:t></w:r>",
    "<w:r><w:fldChar w:fldCharType=\"end\"/></w:r></w:p>"]

/-- A page with a merge field whose path cannot be in a comment as it is. -/
def hyphenPage : Document :=
  ⟨(⟨.document, none, [1]⟩ :: ⟨.element (.word "p" [wordDeclaration]), some 0, [2, 4, 7, 9, 12]⟩ ::
    mergeNodes "MERGEFIELD a--b").toArray⟩

lemma parse_hyphenMarkup : parse hyphenMarkup = .ok hyphenPage :=
  parse_concat [_, _, _, _, _] (by decide +kernel)

lemma mergeFields_hyphenPage : hyphenPage.mergeFields = [⟨5, some "a--b"⟩] := by
  rfl

lemma hasBareTexts_hyphenPage : hyphenPage.hasBareTexts = true := by
  rfl

lemma mergesAgree_hyphenPage : hyphenPage.MergesAgree := by
  intro field hfield field' hfield' element path path' hplace hplace'
  rw [mergeFields_hyphenPage, List.mem_singleton] at hfield hfield'
  rw [hfield] at hplace
  rw [hfield', hplace] at hplace'
  cases hplace'
  rfl

lemma count_hyphenPage : (hyphenPage.processMergeFields {}).count = 1 := by
  rw [processMergeFields, mergeFields_hyphenPage]
  rfl

lemma sealedAt_hyphenPage :
    ∀ id ∈ (hyphenPage.processMergeFields {}).document.descendants root,
      (hyphenPage.processMergeFields {}).document.SealedAt id := by
  have hall : ((hyphenPage.processMergeFields {}).document.descendants root).all
      (fun id => decide ((hyphenPage.processMergeFields {}).document.SealedAt id)) = true := by
    rw [processMergeFields, mergeFields_hyphenPage]
    rfl
  intro id hid
  exact of_decide_eq_true (List.all_eq_true.1 hall id hid)

lemma exists_parse_hyphenPage :
    ∃ d', parse (hyphenPage.processMergeFields {}).document.toMarkup = .ok d' := by
  have hok : (parse (hyphenPage.processMergeFields {}).document.toMarkup).isOk = true := by
    rw [parse, toMarkup, String.toList_ofList, processMergeFields, mergeFields_hyphenPage]
    decide +kernel
  cases hparse : parse (hyphenPage.processMergeFields {}).document.toMarkup with
  | ok d' => exact ⟨d', rfl⟩
  | error _ =>
    rw [hparse] at hok
    cases hok

/-- The field of the page is substituted once. -/
theorem processMergeFields_idempotent_hyphen :
    let first := hyphenPage.processMergeFields {}
    hyphenPage.WellFormed ∧ hyphenPage.BareTexts ∧ hyphenPage.MergesAgree ∧
      parse hyphenMarkup = .ok hyphenPage ∧ first.count = 1 ∧
      first.document.processMergeFields {} = ⟨first.document, 0, first.diagnostics⟩ ∧
      ∃ d', parse first.document.toMarkup = .ok d' ∧ (d'.processMergeFields {}).count = 0 ∧
        (d'.processMergeFields {}).document.toMarkup = first.document.toMarkup := by
  intro first
  have hwell : hyphenPage.WellFormed := wellFormed_of_parse parse_hyphenMarkup
  have hbare : hyphenPage.BareTexts := .of_hasBareTexts hwell hasBareTexts_hyphenPage
  obtain ⟨htwice, hagain⟩ :=
    processMergeFields_idempotent hwell hbare mergesAgree_hyphenPage {}
  obtain ⟨d', hd'⟩ := exists_parse_hyphenPage
  have hnothing := (hagain hyphenMarkup parse_hyphenMarkup).2 (fun _ => sealedAt_hyphenPage) d' hd'
  exact ⟨hwell, hbare, mergesAgree_hyphenPage, parse_hyphenMarkup, count_hyphenPage, htwice, d',
    hd', hnothing⟩

/-! ## A field in a comment -/

/-- The start tag of a paragraph with quotes in its keys.  They pair up only while the values stand
between the quotes of the source. -/
def quotedElement (more : List Attribute) : Element :=
  .word "p" (wordDeclaration :: ⟨⟨none, "k'"⟩, none, "=\""⟩ :: ⟨⟨none, "l\""⟩, none, "w"⟩ :: more)

/-- A comment with a field, behind what would be the end of a start tag. -/
def quotedMarkup : String := Text.concat
  ["<w:p xmlns:w=\"http://schemas.openxmlformats.org/wordprocessingml/2006/main\"",
    " k'='=\"' l\"='w'><!--'=\"\"><w:r><w:fldChar w:fldCharType=\"begin\"/></w:r>",
    "<w:r><w:instrText>MERGEFIELD x</w:instrText></w:r>",
    "<w:r><w:fldChar w:fldCharType=\"separate\"/></w:r><w:r><w:t>y</w:t></w:r>",
    "<w:r><w:fldChar w:fldCharType=\"end\"/></w:r>--></w:p>"]

/-- What is in the comment. -/
def hiddenField : String :=
  "'=\"\"><w:r><w:fldChar w:fldCharType=\"begin\"/></w:r><w:r><w:instrText>MERGEFIELD x</w:instrText></w:r><w:r><w:fldChar w:fldCharType=\"separate\"/></w:r><w:r><w:t>y</w:t></w:r><w:r><w:fldChar w:fldCharType=\"end\"/></w:r>"

/-- A page with such a paragraph around a comment. -/
def quotedPage (comment : String) : Document :=
  ⟨#[⟨.document, none, [1]⟩, ⟨.element (quotedElement []), some 0, [2]⟩,
    ⟨.comment comment, some 1, []⟩]⟩

/-- What the markup is read as. -/
def hiddenPage : Document :=
  quotedPage hiddenField

/-- What is read when this is written: the start tag goes into the comment, and ends there. -/
def shownPage : Document :=
  ⟨(⟨.document, none, [1]⟩ ::
    ⟨.element (quotedElement [⟨⟨none, "><!--'"⟩, none, ""⟩]), some 0, [2, 4, 7, 9, 12, 14]⟩ ::
    (mergeNodes "MERGEFIELD x" ++ [⟨.text "-->", some 1, []⟩])).toArray⟩

-- by `rfl`, since deciding whether the pages are equal encodes the whole comment in bytes
set_option maxRecDepth 2000 in
lemma parse_quotedMarkup : parse quotedMarkup = .ok hiddenPage :=
  parse_concat [_, _, _, _, _] rfl

lemma processMergeFields_hiddenPage :
    hiddenPage.processMergeFields {} = ⟨hiddenPage, 0, []⟩ := by
  rfl

lemma tagMarkup_quotedElement : tagMarkup (quotedElement []) =
    "w:p xmlns:w=\"http://schemas.openxmlformats.org/wordprocessingml/2006/main\"".toList ++
      " k'=\"=&quot;\" l\"=\"w\"".toList := by
  rfl

lemma toChars_quotedPage (comment : String) : (quotedPage comment).toChars =
    '<' :: "w:p xmlns:w=\"http://schemas.openxmlformats.org/wordprocessingml/2006/main\"".toList ++
      " k'=\"=&quot;\" l\"=\"w\"><!--".toList ++ comment.toList ++ "--></w:p>".toList := by
  have hchars : (quotedPage comment).toChars = elementMarkup (quotedElement []) false
      ("<!--".toList ++ comment.toList ++ "-->".toList ++ []) ++ [] := rfl
  have hname : (quotedElement []).name.toChars = "w:p".toList := rfl
  rw [hchars, elementMarkup, tagMarkup_quotedElement, hname]
  simp

lemma parse_toMarkup_quotedPage {comment : String} {chars : List Char} {d : Document}
    (hcomment : comment.toList = chars)
    (h : parseChars
      ('<' :: "w:p xmlns:w=\"http://schemas.openxmlformats.org/wordprocessingml/2006/main\"".toList
        ++ " k'=\"=&quot;\" l\"=\"w\"><!--".toList ++ chars ++ "--></w:p>".toList) = .ok d) :
    parse (quotedPage comment).toMarkup = .ok d := by
  rw [parse, toMarkup, String.toList_ofList, toChars_quotedPage, hcomment, h]

set_option maxRecDepth 2000 in
lemma parse_toMarkup_hiddenPage : parse hiddenPage.toMarkup = .ok shownPage := by
  refine parse_toMarkup_quotedPage String.toList_ofList ?_
  repeat rw [String.toList_ofList]
  rfl

lemma mergeFields_shownPage : shownPage.mergeFields = [⟨5, some "x"⟩] := by
  rfl

lemma count_shownPage : (shownPage.processMergeFields {}).count = 1 := by
  rw [processMergeFields, mergeFields_shownPage]
  rfl

lemma bareTexts_hiddenPage : hiddenPage.BareTexts := by
  have hbare : hiddenPage.hasBareTexts = true := by
    rfl
  exact .of_hasBareTexts (wellFormed_of_parse parse_quotedMarkup) hbare

/-- A page without fields, on which a pass does nothing, has a field to be substituted when it is
written and read again. -/
theorem not_processMergeFields_idempotent_quoted :
    ∃ d d', parse quotedMarkup = .ok d ∧ d.BareTexts ∧ d.MergesAgree ∧
      (d.processMergeFields {}).count = 0 ∧
      parse (d.processMergeFields {}).document.toMarkup = .ok d' ∧
      (d'.processMergeFields {}).count = 1 := by
  have hnone : hiddenPage.mergeFields = [] := by
    rfl
  have hagree : hiddenPage.MergesAgree := by
    intro field hfield
    rw [hnone] at hfield
    cases hfield
  refine ⟨hiddenPage, shownPage, parse_quotedMarkup, bareTexts_hiddenPage, hagree, ?_, ?_,
    count_shownPage⟩
  · rw [processMergeFields_hiddenPage]
  · rw [processMergeFields_hiddenPage]
    exact parse_toMarkup_hiddenPage

end Document

end WordFields
