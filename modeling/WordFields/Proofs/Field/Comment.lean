import WordFields.Proofs.Field.Recording
import WordFields.Proofs.Field.Rereading
import WordFields.Proofs.Markup.Insertion

/-!
# The comment of a path

`spaceHyphens` spaces the hyphens of a text in one go.  The comment of a path is specified by
repetition: as long as two hyphens follow each other somewhere, a space goes between every two that
are found from left to right, and a hyphen at the end gets a space behind it.  A row of hyphens
takes several rounds.  What `spaceHyphens` gives is the same before and after a round
(`spaceHyphens_spacePairs`) and bounds the length, which grows in each round, so the rounds end, and
they end with what `spaceHyphens` gives.

Whatever the path is, such a comment does not end before its end, so it cannot bring markup into a
document (`mergeComment_contained`).
-/

namespace WordFields

open Markup

/-! ## Rounds -/

/-- One round: a space between every two hyphens that are found from left to right. -/
def spacePairs : List Char → List Char
  | [] => []
  | '-' :: '-' :: text => '-' :: ' ' :: '-' :: spacePairs text
  | c :: text => c :: spacePairs text

/-- Rounds until no two hyphens follow each other. -/
inductive Spaced : List Char → List Char → Prop
  | done {text : List Char} (absent : ¬ ['-', '-'] <:+: text) : Spaced text text
  | round {text spaced : List Char} (present : ['-', '-'] <:+: text)
    (rest : Spaced (spacePairs text) spaced) : Spaced text spaced

/-- A hyphen gets a space behind it if a hyphen or nothing follows. -/
lemma spaceHyphens_cons (c : Char) (text : List Char) :
    spaceHyphens (c :: text) =
      if c = '-' ∧ text.head?.all (· == '-') = true then '-' :: ' ' :: spaceHyphens text
      else c :: spaceHyphens text := by
  cases text with
  | nil => simp [spaceHyphens]
  | cons d text => simp [spaceHyphens]

lemma head?_spacePairs (text : List Char) : (spacePairs text).head? = text.head? := by
  fun_cases spacePairs text <;> rfl

/-- A round does not change what comes out in the end. -/
lemma spaceHyphens_spacePairs (text : List Char) :
    spaceHyphens (spacePairs text) = spaceHyphens text := by
  induction text using spacePairs.induct with
  | case1 => rfl
  | case2 text ih =>
    rw [spacePairs, spaceHyphens_cons, spaceHyphens_cons, spaceHyphens_cons, spaceHyphens_cons,
      spaceHyphens_cons, head?_spacePairs, ih]
    simp
  | case3 c text hnot ih =>
    rw [spacePairs, spaceHyphens_cons, spaceHyphens_cons, head?_spacePairs, ih]
    exact fun text' => hnot text'

lemma length_le_spaceHyphens (text : List Char) : text.length ≤ (spaceHyphens text).length := by
  induction text with
  | nil => exact Nat.le_refl _
  | cons c text ih =>
    rw [spaceHyphens_cons]
    split <;> simp only [List.length_cons] <;> omega

lemma length_le_spacePairs (text : List Char) : text.length ≤ (spacePairs text).length := by
  fun_induction spacePairs text with
  | case1 => exact Nat.le_refl _
  | case2 => simp only [List.length_cons]; omega
  | case3 => simp only [List.length_cons]; omega

/-- A round with something to do adds something. -/
lemma length_lt_spacePairs {text : List Char} (h : ['-', '-'] <:+: text) :
    text.length < (spacePairs text).length := by
  induction text using spacePairs.induct with
  | case1 => simp at h
  | case2 text ih =>
    have hle := length_le_spacePairs text
    simp only [spacePairs, List.length_cons]
    omega
  | case3 c text hnot ih =>
    have hrest : ['-', '-'] <:+: text := by
      refine (List.infix_cons_iff.1 h).resolve_left ?_
      rintro ⟨rest, hrest⟩
      obtain ⟨rfl, rfl⟩ := List.cons.inj hrest
      exact hnot rest rfl rfl
    have hlt := ih hrest
    rw [spacePairs]
    · simp only [List.length_cons]
      omega
    · exact fun text' => hnot text'

/-- The rounds end. -/
theorem exists_spaced (text : List Char) : ∃ spaced, Spaced text spaced := by
  by_cases hpresent : ['-', '-'] <:+: text
  · obtain ⟨spaced, hspaced⟩ := exists_spaced (spacePairs text)
    exact ⟨spaced, .round hpresent hspaced⟩
  · exact ⟨text, .done hpresent⟩
termination_by (spaceHyphens text).length - text.length
decreasing_by
  have hlt := length_lt_spacePairs hpresent
  have hle := length_le_spaceHyphens (spacePairs text)
  rw [spaceHyphens_spacePairs] at hle ⊢
  omega

/-- Where no two hyphens follow each other, only one at the end is left. -/
lemma spaceHyphens_of_absent {text : List Char} (h : ¬ ['-', '-'] <:+: text) :
    spaceHyphens text = text ++ if text.getLast? = some '-' then [' '] else [] := by
  induction text with
  | nil => rfl
  | cons c text ih =>
    obtain ⟨hstart, hrest⟩ := not_or.1 (mt List.infix_cons_iff.2 h)
    rw [spaceHyphens_cons, ih hrest]
    cases text with
    | nil => by_cases hc : c = '-' <;> simp [hc]
    | cons d text =>
      have hpair : ¬ (c = '-' ∧ d = '-') := by
        rintro ⟨rfl, rfl⟩
        exact hstart ⟨text, rfl⟩
      simp only [List.head?_cons, Option.all_some, beq_iff_eq, hpair, if_false,
        List.getLast?_cons_cons, List.cons_append]

/-- What `spaceHyphens` gives is the result of the rounds, with a space behind a hyphen at its
end. -/
theorem Spaced.spaceHyphens_eq {text spaced : List Char} (h : Spaced text spaced) :
    spaceHyphens text = spaced ++ if spaced.getLast? = some '-' then [' '] else [] := by
  induction h with
  | done absent => exact spaceHyphens_of_absent absent
  | round _ _ ih => rw [← spaceHyphens_spacePairs, ih]

/-! ## What the comment is -/

lemma getLast?_spaceHyphens (text : List Char) : (spaceHyphens text).getLast? ≠ some '-' := by
  obtain ⟨spaced, hspaced⟩ := exists_spaced text
  rw [hspaced.spaceHyphens_eq]
  split
  next => simp
  next hlast => simpa using hlast

/-- Nothing but spaces is added. -/
lemma filter_spaceHyphens (text : List Char) :
    (spaceHyphens text).filter (· ≠ ' ') = text.filter (· ≠ ' ') := by
  induction text with
  | nil => rfl
  | cons c text ih =>
    rw [spaceHyphens_cons]
    split
    next hc =>
      rw [hc.1, List.filter_cons_of_pos (by decide), List.filter_cons_of_neg (by decide), ih,
        List.filter_cons_of_pos (by decide)]
    next => simp only [List.filter_cons, ih]

lemma prefix_spaceHyphens {front : List Char} (h : '-' ∉ front) (text : List Char) :
    front <+: spaceHyphens (front ++ text) := by
  induction front with
  | nil => exact List.nil_prefix
  | cons c front ih =>
    obtain ⟨hc, hrest⟩ := not_or.1 (mt List.mem_cons.2 h)
    rw [List.cons_append, spaceHyphens_cons, if_neg fun hboth => hc hboth.1.symm]
    exact List.cons_prefix_cons.2 ⟨rfl, ih hrest⟩

lemma readEvent_comment {content : List Char} (h : EndsAt "-->".toList content)
    (rest : List Char) :
    readEvent ("<!--".toList ++ content ++ "-->".toList ++ rest) =
      .ok (.comment content, rest) := by
  have hreadable : (Event.comment content).Readable := h
  exact readEvent_markup hreadable (Event.sealed_of_tag? rfl) (fun heq => nomatch heq)
    fun htext => nomatch htext

/-- The comment of a path is what the rounds make of it, has no two hyphens in a row and none at the
end, and differs from the path by spaces only.  Wherever its markup stands it is read as the comment
and what follows as what follows.  Put before an element of a document it is put into the markup,
and this is read back with the comment if and only if it is read back without. -/
theorem mergeComment_contained (path : String) :
    (∃ spaced, Spaced ("MERGEFIELD:".toList ++ path.toList) spaced ∧
      (mergeComment path).toList =
        spaced ++ if spaced.getLast? = some '-' then [' '] else []) ∧
    ¬ ['-', '-'] <:+: (mergeComment path).toList ∧
    (mergeComment path).toList.getLast? ≠ some '-' ∧
    "MERGEFIELD:".toList <+: (mergeComment path).toList ∧
    (mergeComment path).toList.filter (· ≠ ' ') =
      ("MERGEFIELD:".toList ++ path.toList).filter (· ≠ ' ') ∧
    (∀ rest, readEvent ("<!--".toList ++ (mergeComment path).toList ++ "-->".toList ++ rest) =
      .ok (.comment (mergeComment path).toList, rest)) ∧
    ∀ (d : Document) (id : NodeId), d.WellFormed → d.isElement id = true →
      id ∈ d.descendants Document.root →
      (∀ y, d.Below y id → d.kind y = .document ∨ d.isElement y = true) →
      (∃ front back, d.toChars = front ++ back ∧
        (d.insertNew id (.comment (mergeComment path))).toChars =
          front ++ ("<!--".toList ++ (mergeComment path).toList ++ "-->".toList) ++ back) ∧
      ((d.insertNew id (.comment (mergeComment path))).ReadsBack ↔ d.ReadsBack) ∧
      ∀ text, parse text = .ok d →
        (d.ReadsBack ↔ ∀ x ∈ d.descendants Document.root, d.SealedAt x ∧ d.ProperAt x) := by
  have hcomment := toList_mergeComment path
  have hends := endsAt_mergeComment path
  refine ⟨?_, ?_, ?_, ?_, ?_, fun rest => readEvent_comment hends rest, ?_⟩
  · obtain ⟨spaced, hspaced⟩ := exists_spaced ("MERGEFIELD:".toList ++ path.toList)
    exact ⟨spaced, hspaced, hcomment.trans hspaced.spaceHyphens_eq⟩
  · rw [hcomment]
    exact not_occurs_spaceHyphens _
  · rw [hcomment]
    exact getLast?_spaceHyphens _
  · rw [hcomment]
    exact prefix_spaceHyphens (by decide) path.toList
  · rw [hcomment]
    exact filter_spaceHyphens _
  · intro d id hd helement hid habove
    have hbelow := hd.mem_descendants.1 hid
    exact ⟨Document.exists_toChars_insertNew hd helement hbelow habove _,
      Document.readsBack_insertNew_iff hd helement hbelow habove hends,
      fun _ hparse => Document.readsBack_iff_of_parse hparse⟩

def hyphenNote : String :=
  "<r><t>x</t></r>"

/-- A path with hyphens in a row and at the end. -/
theorem mergeComment_contained_hyphens :
    mergeComment "a---b-" = "MERGEFIELD:a- - -b- " ∧ ∃ d, parse hyphenNote = .ok d ∧
      d.WellFormed ∧ d.isElement 2 = true ∧ 2 ∈ d.descendants Document.root ∧
      (∀ y, d.Below y 2 → d.kind y = .document ∨ d.isElement y = true) ∧
      (d.insertNew 2 (.comment (mergeComment "a---b-"))).ReadsBack := by
  obtain ⟨d, hparse, helement, hid, habove, hsealed⟩ :
      ∃ d, parse hyphenNote = .ok d ∧ d.isElement 2 = true ∧ 2 ∈ d.descendants Document.root ∧
        (∀ y < d.size, d.children y ≠ [] → d.kind y = .document ∨ d.isElement y = true) ∧
        ∀ x ∈ d.descendants Document.root, d.SealedAt x ∧ d.ProperAt x :=
    ⟨_, rfl, by decide +kernel⟩
  have hd := wellFormed_of_parse hparse
  have habove' : ∀ y, d.Below y 2 → d.kind y = .document ∨ d.isElement y = true := by
    intro y hbelow
    obtain ⟨child, hchild, -⟩ := hd.exists_child_of_below hbelow
    exact Document.forall_of_lt_size habove y (List.ne_nil_of_mem hchild)
  obtain ⟨-, -, -, -, -, -, hnoted⟩ := mergeComment_contained "a---b-"
  obtain ⟨-, hiff, hread⟩ := hnoted d 2 hd helement hid habove'
  exact ⟨by decide +kernel, d, hparse, hd, helement, hid, habove',
    hiff.2 ((hread _ hparse).2 hsealed)⟩

/-! ## Where the document is not read back -/

def quotedFieldMarkup : String := Text.concat
  ["<w:p xmlns:w=\"http://schemas.openxmlformats.org/wordprocessingml/2006/main\"",
    " k'='=\"' l\"='w'><w:r><w:fldChar w:fldCharType=\"begin\"/></w:r>",
    "<w:r><w:instrText>MERGEFIELD x</w:instrText></w:r>",
    "<w:r><w:fldChar w:fldCharType=\"separate\"/></w:r><w:r><w:t>y</w:t></w:r>",
    "<w:r><w:fldChar w:fldCharType=\"end\"/></w:r></w:p>"]

/-- A merge field in a paragraph with quotes in its keys. -/
def quotedFieldPage : Document :=
  ⟨(⟨.document, none, [1]⟩ ::
    ⟨.element (Document.quotedElement []), some 0, [2, 4, 7, 9, 12]⟩ ::
      Document.mergeNodes "MERGEFIELD x").toArray⟩

lemma parse_quotedFieldMarkup : parse quotedFieldMarkup = .ok quotedFieldPage :=
  parse_concat [_, _, _, _, _] (by decide +kernel)

/-- Where the quotes of a start tag do not pair up as they are written, the tag does not end, and
neither the comment nor anything else is read. -/
theorem not_parse_mergeComment_quoted :
    ∃ d, parse quotedFieldMarkup = .ok d ∧ 10 ∈ d.textElements ∧
      ∀ d', parse (d.insertNew 10 (.comment (mergeComment "x"))).toMarkup ≠ .ok d' := by
  refine ⟨quotedFieldPage, parse_quotedFieldMarkup, by decide +kernel, fun d' hparse => ?_⟩
  have hfails : (parse (quotedFieldPage.insertNew 10 (.comment (mergeComment "x"))).toMarkup).isOk =
      false := by
    rw [parse, Document.toMarkup, String.toList_ofList]
    decide +kernel
  rw [hparse] at hfails
  cases hfails

end WordFields
