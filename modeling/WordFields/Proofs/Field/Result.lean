import WordFields.Proofs.Field.Accounting
import WordFields.Proofs.Tree.Order
import WordFields.Proofs.Word.Passage

/-!
# Where a result is found

The ending mark of a field is searched anywhere in the siblings after the separator, and the result
in the same siblings, up to the one that holds the ending mark directly.  The text that is found
always comes after the separator.  It comes before the ending mark if any text in these siblings
does, for it is the first of them, and if the run of the ending mark is one of these siblings.
Otherwise it is text behind the field: the run of the ending mark is inside something else, such as
a hyperlink, at which the search for a result does not stop (`ResultPlace`).
-/

namespace WordFields

open scoped List

namespace Document

variable {d : Document}

/-- The text elements in the siblings after the element that holds a node. -/
def textsBehind (d : Document) (id : NodeId) : List NodeId :=
  match d.parent id with
  | some container => (d.followingElements container).flatMap fun n => d.wordDescendants n "t"
  | none => []

/-- Whether a node is a direct child of an element after the one that holds another node. -/
def IsChildBehind (d : Document) (other id : NodeId) : Prop :=
  ∃ container ∈ d.parent other, ∃ n ∈ d.parent id, n ∈ d.followingElements container

/-- Where the text that is found as the result of a field stands. -/
structure ResultPlace (d : Document) (triad : FieldTriad) (text : NodeId) : Prop where
  after_separator : d.Precedes triad.separator text
  before_or_behind : d.Precedes text triad.ending ∨ d.Precedes triad.ending text
  before_ending_iff : d.Precedes text triad.ending ↔
    ∃ other ∈ d.textsBehind triad.separator, d.Precedes other triad.ending
  before_ending_of_child : d.IsChildBehind triad.separator triad.ending →
    d.Precedes text triad.ending

/-! ## Siblings after an element -/

lemma followingElements_eq_nil {container : NodeId} (h : d.parent container = none) :
    d.followingElements container = [] := by
  rw [followingElements, followingSiblings, siblingsOf, h]
  rfl

lemma cons_followingElements_sublist (hd : d.WellFormed) {container parent : NodeId}
    (h : d.parent container = some parent) :
    container :: d.followingElements container <+ d.children parent := by
  obtain ⟨before, after, hchildren⟩ := List.append_of_mem (hd.mem_of_parent h)
  rw [followingElements, followingSiblings_eq hd hchildren, hchildren]
  exact ((List.filter_sublist).cons_cons container).trans (List.sublist_append_right before _)

/-- The parent of an element with elements after it. -/
lemma exists_parent_of_mem_followingElements {container n : NodeId}
    (h : n ∈ d.followingElements container) : ∃ parent, d.parent container = some parent := by
  rw [← Option.isSome_iff_exists, Option.isSome_iff_ne_none]
  intro hnone
  rw [followingElements_eq_nil hnone] at h
  exact List.not_mem_nil h

lemma textsBehind_eq {id container : NodeId} (h : d.parent id = some container) :
    d.textsBehind id = (d.followingElements container).flatMap fun n => d.wordDescendants n "t" := by
  rw [textsBehind, h]

/-- What the elements behind an element hold, one after the other, is in document order. -/
lemma flatMap_wordDescendants_sublist (hd : d.WellFormed) {container parent : NodeId}
    (h : d.parent container = some parent) (name : String) :
    (d.followingElements container).flatMap (fun n => d.wordDescendants n name) <+
      d.descendants parent := by
  have hfollowing : d.followingElements container <+ d.children parent :=
    (List.sublist_cons_self _ _).trans (cons_followingElements_sublist hd h)
  rw [hd.descendants_eq_flatMap]
  refine List.Sublist.trans ?_ (hfollowing.flatMap fun child => child :: d.descendants child)
  exact List.Sublist.flatMap_right _ fun n _ => List.filter_sublist.trans (List.sublist_cons_self _ _)

lemma textsBehind_sublist (hd : d.WellFormed) {id container parent : NodeId}
    (hcontainer : d.parent id = some container) (hparent : d.parent container = some parent) :
    d.textsBehind id <+ d.descendants parent := by
  rw [textsBehind_eq hcontainer]
  exact flatMap_wordDescendants_sublist hd hparent "t"

/-! ## The text that is found -/

section

variable {triad : FieldTriad} {text container : NodeId}

/-- The sibling in which the text is found, before that of the ending mark. -/
lemma exists_sibling_of_resultText? (hcontainer : d.parent triad.separator = some container)
    (h : d.resultText? triad = some text) : ∃ before sibling after,
      d.followingElements container = before ++ sibling :: after ∧
        (∀ n ∈ before ++ [sibling], some n ≠ d.parent triad.ending) ∧
          (∀ n ∈ before, d.wordDescendants n "t" = []) ∧
            (d.wordDescendants sibling "t").head? = some text := by
  rw [resultText?, hcontainer] at h
  obtain ⟨before, sibling, middle, htaken, hfirst, hnone⟩ := List.findSome?_eq_some_iff.1 h
  obtain ⟨after, hafter⟩ := List.takeWhile_prefix
    (l := d.followingElements container) fun n => some n != d.parent triad.ending
  refine ⟨before, sibling, middle ++ after, ?_, fun n hn => ?_, fun n hn => ?_, ?_⟩
  · rw [← hafter, htaken, List.append_assoc, List.cons_append]
  · have htaken : n ∈ (d.followingElements container).takeWhile
        fun n => some n != d.parent triad.ending := by
      rw [htaken]
      exact (List.append_sublist_append_left before).2 (by simp) |>.subset hn
    simpa using List.all_eq_true.1 List.all_takeWhile n htaken
  · have hnil := hnone n hn
    rw [firstWordDescendant?_eq_head?] at hnil
    exact List.head?_eq_none_iff.1 hnil
  · rwa [firstWordDescendant?_eq_head?] at hfirst

/-- The result is the first text of all the siblings. -/
lemma head?_textsBehind (h : d.resultText? triad = some text) :
    (d.textsBehind triad.separator).head? = some text := by
  cases hcontainer : d.parent triad.separator with
  | none =>
    rw [resultText?, hcontainer] at h
    cases h
  | some container =>
    obtain ⟨before, sibling, after, hsiblings, -, hbefore, hhead⟩ :=
      exists_sibling_of_resultText? hcontainer h
    have hnil : (before.flatMap fun n => d.wordDescendants n "t") = [] :=
      List.flatMap_eq_nil_iff.2 hbefore
    rw [textsBehind_eq hcontainer, hsiblings, List.flatMap_append, hnil, List.nil_append,
      List.flatMap_cons, List.head?_append, hhead]
    rfl

/-- The ending mark is found in one of the siblings. -/
lemma exists_sibling_of_locateNext? {mark : FieldMark} {separator ending : NodeId}
    (h : d.locateNext? separator mark = some ending) : ∃ container sibling,
      d.parent separator = some container ∧ sibling ∈ d.followingElements container ∧
        ending ∈ d.wordDescendants sibling "fldChar" := by
  unfold locateNext? at h
  split at h
  next container hcontainer =>
    obtain ⟨sibling, hsibling, hfound⟩ := List.exists_of_findSome?_eq_some h
    exact ⟨container, sibling, hcontainer, hsibling, List.mem_of_find?_eq_some hfound⟩
  next => cases h

/-- The text that is found comes after the separator, and before the ending mark exactly if any text
in the siblings after the separator does. -/
theorem resultPlace (hd : d.WellFormed) {instruction : NodeId}
    (hlocate : d.locateTriad instruction = .ok triad) (h : d.resultText? triad = some text) :
    d.ResultPlace triad text := by
  obtain ⟨container, last, hcontainer, hlast, hmark⟩ :=
    exists_sibling_of_locateNext? (locateTriad_eq_ok_iff.1 hlocate).2.2
  obtain ⟨parent, hparent⟩ := exists_parent_of_mem_followingElements hlast
  obtain ⟨before, sibling, after, hsiblings, hnot, -, hhead⟩ :=
    exists_sibling_of_resultText? hcontainer h
  have hfollowing := cons_followingElements_sublist hd hparent
  have hbelow : ∀ n ∈ d.followingElements container, d.Below parent n := fun n hn =>
    below_of_parent (hd.parent_of_mem (hfollowing.subset (List.mem_cons_of_mem _ hn)))
  obtain ⟨hmark, hmarkWord⟩ := List.mem_filter.1 hmark
  obtain ⟨htext, htextWord⟩ := List.mem_filter.1 (List.mem_of_head? hhead)
  have hlastEnding : d.Below last triad.ending := hd.mem_descendants.1 hmark
  have hsiblingText : d.Below sibling text := hd.mem_descendants.1 htext
  have hending : d.Below parent triad.ending := (hbelow last hlast).trans hlastEnding
  have hsibling : sibling ∈ d.followingElements container := by simp [hsiblings]
  have hbelowText : d.Below parent text := (hbelow sibling hsibling).trans hsiblingText
  -- the result comes before every other text of the siblings
  have hfirst : ∀ other ∈ d.textsBehind triad.separator, other = text ∨ d.Precedes text other := by
    obtain ⟨rest, htexts⟩ := List.head?_eq_some_iff.1 (head?_textsBehind h)
    intro other hother
    rw [htexts, List.mem_cons] at hother
    refine hother.imp_right fun hrest => ⟨parent, ?_⟩
    have hpair : [text, other] <+ d.textsBehind triad.separator := by
      rw [htexts]
      exact (List.singleton_sublist.2 hrest).cons_cons text
    exact hpair.trans (textsBehind_sublist hd hcontainer hparent)
  refine ⟨?_, ?_, ⟨fun hbefore => ⟨text, ?_, hbefore⟩, ?_⟩, ?_⟩
  · have hpair : [container, sibling] <+ d.children parent :=
      ((List.singleton_sublist.2 hsibling).cons_cons container).trans hfollowing
    exact .of_siblings hd hpair (.inr (below_of_parent hcontainer)) (.inr hsiblingText)
  · have hne : text ≠ triad.ending := by
      intro heq
      rw [← heq] at hmarkWord
      exact absurd (name_eq_of_isWord htextWord hmarkWord) (by decide)
    refine (pair_sublist_or (hd.mem_descendants.2 hbelowText) (hd.mem_descendants.2 hending)
      hne).imp (fun h => ⟨parent, h⟩) fun h => ⟨parent, h⟩
  · exact List.mem_of_mem_head? (head?_textsBehind h)
  · rintro ⟨other, hother, hbefore⟩
    rcases hfirst other hother with rfl | hprecedes
    · exact hbefore
    · exact hprecedes.trans hd hbefore
  · rintro ⟨container', hcontainer', run, hrun, hmem⟩
    obtain rfl : container = container' := Option.some.inj (hcontainer.symm.trans hcontainer')
    -- the search for the result stops at this run
    have hbehind : run ∈ after := by
      rw [hsiblings, List.append_cons, List.mem_append] at hmem
      exact hmem.resolve_left fun hin => hnot run hin hrun.symm
    have hpair : [sibling, run] <+ d.followingElements container := by
      rw [hsiblings]
      exact ((List.singleton_sublist.2 hbehind).cons_cons sibling).trans
        (List.sublist_append_right before _)
    exact .of_siblings hd (hpair.trans ((List.sublist_cons_self _ _).trans hfollowing))
      (.inr hsiblingText) (.inr (below_of_parent hrun))

end

/-! ## The texts that a pass replaces -/

lemma exists_triad_of_mergeAction {field : MergeField} {element : NodeId} {path : String}
    (h : d.mergeAction field = .substitute element path) : field.path = some path ∧
      ∃ triad, d.locateTriad field.instruction = .ok triad ∧
        d.resultText? triad = some element := by
  unfold mergeAction at h
  split at h
  · cases h
  next named hpath =>
    split at h
    · cases h
    next triad hlocate =>
      split at h
      · cases h
      next found hresult =>
        split at h
        · cases h
        · cases h
          exact ⟨hpath, triad, hlocate, hresult⟩

/-- Each text that is replaced is the result of a field in the document that the earlier
replacements have left. -/
lemma exists_mergeAction_of_mergeTargets (hd : d.WellFormed) (options : Options)
    {fields : List MergeField} {done rest : List (NodeId × String)} {element : NodeId}
    {path : String} (h : mergeTargets options d fields = done ++ (element, path) :: rest) :
    (d.substituteAll options done).WellFormed ∧ ∃ field ∈ fields,
      (d.substituteAll options done).mergeAction field = .substitute element path := by
  induction fields generalizing d done with
  | nil => simp [mergeTargets, mergeActions] at h
  | cons first fields ih =>
    have hnext : ((d.mergeAction first).apply d options).WellFormed :=
      (substituted_apply hd options first).wellFormed
    have hlater : ∀ {later : List (NodeId × String)},
        mergeTargets options ((d.mergeAction first).apply d options) fields =
          later ++ (element, path) :: rest →
        d.substituteAll options done =
          ((d.mergeAction first).apply d options).substituteAll options later →
        (d.substituteAll options done).WellFormed ∧ ∃ field ∈ first :: fields,
          (d.substituteAll options done).mergeAction field = .substitute element path := by
      intro later htargets heq
      obtain ⟨hwell, field, hmem, haction⟩ := ih hnext htargets
      rw [heq]
      exact ⟨hwell, field, List.mem_cons_of_mem first hmem, haction⟩
    rw [mergeTargets_cons] at h
    cases haction : d.mergeAction first with
    | report diagnostic =>
      rw [haction] at h hlater
      exact hlater h rfl
    | keep =>
      rw [haction] at h hlater
      exact hlater h rfl
    | substitute found named =>
      rw [haction] at h hlater
      cases done with
      | nil =>
        obtain ⟨htarget, -⟩ := List.cons.inj h
        cases htarget
        exact ⟨hd, first, List.mem_cons_self, haction⟩
      | cons target done =>
        obtain ⟨rfl, htargets⟩ := List.cons.inj h
        exact hlater htargets rfl

/-- The result of a field is found behind its separator, and before its ending mark exactly if a
text in the siblings after the separator is.  A pass over merge fields replaces such texts only,
each as it is found in the document at that moment. -/
theorem processMergeFields_place (hd : d.WellFormed) (options : Options) :
    (∀ instruction triad text, d.locateTriad instruction = .ok triad →
        d.resultText? triad = some text → d.ResultPlace triad text) ∧
      (d.processMergeFields options).document =
        d.substituteAll options (mergeTargets options d d.mergeFields) ∧
      ∀ done element path rest,
        mergeTargets options d d.mergeFields = done ++ (element, path) :: rest →
          let now := d.substituteAll options done
          now.WellFormed ∧ ∃ field ∈ d.mergeFields, field.path = some path ∧
            ∃ triad, now.locateTriad field.instruction = .ok triad ∧
              now.resultText? triad = some element ∧ now.ResultPlace triad element := by
  refine ⟨fun instruction triad text hlocate => resultPlace hd hlocate,
    processMergeFields_document d options, fun done element path rest htargets => ?_⟩
  obtain ⟨hwell, field, hfield, haction⟩ := exists_mergeAction_of_mergeTargets hd options htargets
  obtain ⟨hpath, triad, hlocate, hresult⟩ := exists_triad_of_mergeAction haction
  exact ⟨hwell, field, hfield, hpath, triad, hlocate, hresult, resultPlace hwell hlocate hresult⟩

/-! ## A field that ends in a hyperlink -/

/-- A paragraph with the field `MERGEFIELD x`, its last part in a hyperlink together with its ending
mark, and the text `after` behind the field. -/
def hyperlinkPage (result : List RunContent) : Document :=
  ofForest [.word "p" [wordDeclaration]
    (([.mark .beginning, .instruction "MERGEFIELD x", .mark .separator] : List RunContent).map
        RunContent.tree ++
      [.word "hyperlink" [] ((result ++ [RunContent.mark .ending]).map RunContent.tree),
        (RunContent.text "after").tree])]

/-- Where the hyperlink holds the result, the result is found in it, behind the separator and before
the ending mark, and the pass replaces it. -/
theorem processMergeFields_place_hyperlink :
    let d := hyperlinkPage [.text "y"]
    d.WellFormed ∧ mergeTargets {} d d.mergeFields = [(11, "x")] ∧ d.Precedes 8 11 ∧
      d.Precedes 11 14 ∧
        (d.processMergeFields {}).document = d.substituteAll {} [(11, "x")] := by
  intro d
  have hd : d.WellFormed := (displays_ofForest _).wellFormed
  have hfields : d.mergeFields = [⟨5, some "x"⟩] := by decide +kernel
  have htargets : mergeTargets {} d d.mergeFields = [(11, "x")] := by
    rw [hfields]
    decide +kernel
  obtain ⟨hplace, hdocument, -⟩ := processMergeFields_place hd {}
  have hlocate : d.locateTriad 5 = .ok ⟨3, 8, 14⟩ := by decide +kernel
  have hresult : d.resultText? ⟨3, 8, 14⟩ = some 11 := by decide +kernel
  have h := hplace 5 ⟨3, 8, 14⟩ 11 hlocate hresult
  have hother : 11 ∈ d.textsBehind 8 := by decide +kernel
  have hbefore : d.Precedes 11 14 := ⟨9, by decide +kernel⟩
  rw [htargets] at hdocument
  exact ⟨hd, htargets, h.after_separator, h.before_ending_iff.2 ⟨11, hother, hbefore⟩, hdocument⟩

/-- Where it holds no text, the text behind the field is found in place of the result, and the pass
replaces it. -/
theorem not_processMergeFields_place_hyperlink :
    let d := hyperlinkPage []
    d.WellFormed ∧ d.mergeFields = [⟨5, some "x"⟩] ∧ d.locateTriad 5 = .ok ⟨3, 8, 11⟩ ∧
      d.resultText? ⟨3, 8, 11⟩ = some 13 ∧ ¬ d.Precedes 13 11 ∧ d.Precedes 11 13 ∧
        mergeTargets {} d d.mergeFields = [(13, "x")] := by
  intro d
  have hd : d.WellFormed := (displays_ofForest _).wellFormed
  have hfields : d.mergeFields = [⟨5, some "x"⟩] := by decide +kernel
  have hbehind : d.Precedes 11 13 := ⟨1, by decide +kernel⟩
  refine ⟨hd, hfields, by decide +kernel, by decide +kernel, hbehind.asymm hd, hbehind, ?_⟩
  rw [hfields]
  decide +kernel

end Document

end WordFields
