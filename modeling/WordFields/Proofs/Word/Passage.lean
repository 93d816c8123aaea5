import WordFields.Proofs.Word.Sheet

/-!
# Fields inside fields

The code and the result of a field may hold complete fields again.  A *passage* is a sequence of
sibling runs in which the marks form fields that are properly inside each other, each run holding at
most one field character, instruction or text.

The search for the marks of an instruction takes the nearest mark of each kind and does not count
fields in between.  A field in between has marks of all three kinds, so whether the search finds the
instruction's own marks depends on nothing but whether there is one: in the code, where the first
mark and the separator are searched, or in the result, where the last mark is
(`locateTriad_eq_triad_iff`).
-/

namespace WordFields

/-- A run with the mark that it holds. -/
structure MarkedRun where
  run : NodeId
  mark : NodeId
  deriving DecidableEq

/-- Sibling runs whose marks form fields, with fields in their code and in their result. -/
inductive Passage where
  | nil
  /-- A run without a mark, with what it holds otherwise. -/
  | run (run : NodeId) (part : Option NodeId) (rest : Passage)
  | field (beginning : MarkedRun) (code : Passage) (separator : MarkedRun) (result : Passage)
      (ending : MarkedRun) (rest : Passage)
  deriving DecidableEq

/-- A field of a passage: its marks, what is between the first two, and what is between the last
two. -/
structure MarkedField where
  beginning : MarkedRun
  code : Passage
  separator : MarkedRun
  result : Passage
  ending : MarkedRun
  deriving DecidableEq

def MarkedField.triad (field : MarkedField) : FieldTriad :=
  ⟨field.beginning.mark, field.separator.mark, field.ending.mark⟩

namespace Passage

def runs : Passage → List NodeId
  | nil => []
  | run id _ rest => id :: rest.runs
  | field beginning code separator result ending rest =>
    (beginning.run :: (code.runs ++ separator.run :: (result.runs ++ [ending.run]))) ++ rest.runs

/-- The fields of a passage, those inside others included. -/
def fields : Passage → List MarkedField
  | nil => []
  | run _ _ rest => rest.fields
  | field beginning code separator result ending rest =>
    ⟨beginning, code, separator, result, ending⟩ :: (code.fields ++ result.fields ++ rest.fields)

/-- What the runs of a passage hold that are in none of its fields. -/
def parts : Passage → List NodeId
  | nil => []
  | run _ part rest => part.toList ++ rest.parts
  | field _ _ _ _ _ rest => rest.parts

end Passage

def MarkedField.runs (field : MarkedField) : List NodeId :=
  field.beginning.run :: (field.code.runs ++ field.separator.run ::
    (field.result.runs ++ [field.ending.run]))

namespace Document

variable {d : Document}

/-- Whether a node is a field character, an instruction or a text element. -/
def isFieldPart (d : Document) (id : NodeId) : Bool :=
  d.isWord id "fldChar" || d.isWord id "instrText" || d.isWord id "t"

lemma isFieldPart_iff {x : NodeId} :
    d.isFieldPart x = true ↔ ∃ name ∈ ["fldChar", "instrText", "t"], d.isWord x name = true := by
  simp [isFieldPart, or_assoc]

/-- Whether a node has no field character, no instruction and no text element in it. -/
def IsIdle (d : Document) (id : NodeId) : Prop :=
  ∀ x ∈ d.descendants id, d.isFieldPart x = false

instance (d : Document) : DecidablePred d.IsIdle := fun id =>
  inferInstanceAs (Decidable (∀ x ∈ d.descendants id, d.isFieldPart x = false))

/-- Whether a run holds just this one field character, instruction or text element, or none. -/
def Holds (d : Document) (run : NodeId) (part : Option NodeId) : Prop :=
  (d.descendants run).filter d.isFieldPart = part.toList ∧ ∀ id ∈ part, d.parent id = some run

def HoldsMark (d : Document) (marked : MarkedRun) (mark : FieldMark) : Prop :=
  d.Holds marked.run (some marked.mark) ∧ d.fieldMark? marked.mark = some mark

end Document

/-- Whether the runs of a document hold what a passage says. -/
def Passage.Stands (d : Document) : Passage → Prop
  | nil => True
  | run id part rest =>
    d.Holds id part ∧ (∀ x ∈ part, d.fieldMark? x = none) ∧ rest.Stands d
  | field beginning code separator result ending rest =>
    d.HoldsMark beginning .beginning ∧ code.Stands d ∧ d.HoldsMark separator .separator ∧
      result.Stands d ∧ d.HoldsMark ending .ending ∧ rest.Stands d

namespace Document

variable {d : Document} {passage : Passage} {mark : FieldMark}

/-! ## Searching a run -/

lemma isWord_of_fieldMark? {id : NodeId} (h : d.fieldMark? id = some mark) :
    d.isWord id "fldChar" = true := by
  unfold fieldMark? at h
  split at h
  next hword => exact hword
  next => cases h

/-- The search in a run looks at what the run holds. -/
lemma Holds.markIn?_eq {run : NodeId} {part : Option NodeId} (h : d.Holds run part) :
    d.markIn? mark run = part.toList.find? fun id => d.fieldMark? id == some mark := by
  rw [← h.1, markIn?, wordDescendants, descendantsIn, List.find?_filter, List.find?_filter]
  congr 1
  funext id
  cases hmark : d.fieldMark? id == some mark with
  | false => simp
  | true =>
    have hword := isWord_of_fieldMark? (eq_of_beq hmark)
    simp [isFieldPart, hword, show d.isElementIn id wordNamespace "fldChar" = true from hword]

lemma HoldsMark.markIn?_eq {marked : MarkedRun} (h : d.HoldsMark marked mark) :
    d.markIn? mark marked.run = some marked.mark := by
  rw [h.1.markIn?_eq]
  simp [h.2]

lemma HoldsMark.parent_eq {marked : MarkedRun} (h : d.HoldsMark marked mark) :
    d.parent marked.mark = some marked.run :=
  h.1.2 _ rfl

/-- A mark that is found in a run is directly in it. -/
lemma Holds.parent_of_markIn? {run leaf : NodeId} {part : Option NodeId} (h : d.Holds run part)
    (hleaf : d.markIn? mark run = some leaf) : d.parent leaf = some run := by
  rw [h.markIn?_eq] at hleaf
  exact h.2 leaf (Option.mem_toList.1 (List.mem_of_find?_eq_some hleaf))

end Document

namespace Passage

open Document

variable {d : Document} {passage : Passage} {mark : FieldMark}

/-! ## Searching a passage -/

lemma exists_holds (h : passage.Stands d) {run : NodeId} (hrun : run ∈ passage.runs) :
    ∃ part, d.Holds run part := by
  induction passage with
  | nil => cases hrun
  | run id part rest ih =>
    rcases List.mem_cons.1 hrun with rfl | hrun
    · exact ⟨part, h.1⟩
    · exact ih h.2.2 hrun
  | field beginning code separator result ending rest ihCode ihResult ihRest =>
    obtain ⟨hbeginning, hcode, hseparator, hresult, hending, hrest⟩ := h
    simp only [runs, List.mem_append, List.mem_cons, List.not_mem_nil, or_false] at hrun
    rcases hrun with (rfl | hrun | rfl | hrun | rfl) | hrun
    · exact ⟨_, hbeginning.1⟩
    · exact ihCode hcode hrun
    · exact ⟨_, hseparator.1⟩
    · exact ihResult hresult hrun
    · exact ⟨_, hending.1⟩
    · exact ihRest hrest hrun

/-- Without fields there are no marks. -/
lemma markIn?_eq_none (h : passage.Stands d) (hfields : passage.fields = []) {run : NodeId}
    (hrun : run ∈ passage.runs) : d.markIn? mark run = none := by
  induction passage with
  | nil => cases hrun
  | run id part rest ih =>
    rcases List.mem_cons.1 hrun with rfl | hrun
    · rw [h.1.markIn?_eq, List.find?_eq_none]
      intro x hx
      simp [h.2.1 x (Option.mem_toList.1 hx)]
    · exact ih h.2.2 hfields hrun
  | field => cases hfields

/-- A field has marks of all kinds. -/
lemma exists_markIn? (h : passage.Stands d) (hfields : passage.fields ≠ []) (mark : FieldMark) :
    ∃ run ∈ passage.runs, ∃ leaf, d.markIn? mark run = some leaf := by
  induction passage with
  | nil => exact absurd rfl hfields
  | run id part rest ih =>
    obtain ⟨run, hrun, hleaf⟩ := ih h.2.2 hfields
    exact ⟨run, List.mem_cons_of_mem _ hrun, hleaf⟩
  | field beginning code separator result ending rest =>
    obtain ⟨hbeginning, -, hseparator, -, hending, -⟩ := h
    cases mark with
    | beginning => exact ⟨beginning.run, by simp [runs], _, hbeginning.markIn?_eq⟩
    | separator => exact ⟨separator.run, by simp [runs], _, hseparator.markIn?_eq⟩
    | ending => exact ⟨ending.run, by simp [runs], _, hending.markIn?_eq⟩

/-- The search through the runs of a passage, in whatever order, gets to a mark behind them exactly
if the passage has no field. -/
lemma findSome?_eq_iff (h : passage.Stands d) {target : MarkedRun}
    (htarget : d.HoldsMark target mark) {near far : List NodeId}
    (hnear : ∀ run, run ∈ near ↔ run ∈ passage.runs) (hapart : target.run ∉ passage.runs) :
    (near ++ target.run :: far).findSome? (d.markIn? mark) = some target.mark ↔
      passage.fields = [] := by
  rw [List.findSome?_append]
  constructor
  · intro hfound
    by_contra hfields
    obtain ⟨run, hrun, leaf, hleaf⟩ := exists_markIn? h hfields mark
    have hsome : (near.findSome? (d.markIn? mark)).isSome = true :=
      List.findSome?_isSome_iff.2 ⟨run, (hnear run).2 hrun, by rw [hleaf]; rfl⟩
    obtain ⟨found, hfoundNear⟩ := Option.isSome_iff_exists.1 hsome
    obtain ⟨run', hrun', hmark⟩ := List.exists_of_findSome?_eq_some hfoundNear
    rw [hfoundNear, Option.some_or, Option.some.injEq] at hfound
    subst hfound
    obtain ⟨part, hholds⟩ := exists_holds h ((hnear run').1 hrun')
    have hparent := hholds.parent_of_markIn? hmark
    rw [htarget.parent_eq, Option.some.injEq] at hparent
    exact hapart (hparent ▸ (hnear run').1 hrun')
  · intro hfields
    have hnone : near.findSome? (d.markIn? mark) = none :=
      List.findSome?_eq_none_iff.2 fun run hrun => markIn?_eq_none h hfields ((hnear run).1 hrun)
    rw [hnone, Option.none_or, List.findSome?_cons, htarget.markIn?_eq]

/-! ## Where fields and parts are -/

/-- The runs of a field stand together. -/
lemma exists_of_mem_fields (h : passage.Stands d) {field : MarkedField}
    (hfield : field ∈ passage.fields) :
    ∃ before after, passage.runs = before ++ (field.runs ++ after) ∧
      d.HoldsMark field.beginning .beginning ∧ field.code.Stands d ∧
        d.HoldsMark field.separator .separator ∧ field.result.Stands d ∧
          d.HoldsMark field.ending .ending := by
  induction passage with
  | nil => cases hfield
  | run id part rest ih =>
    obtain ⟨before, after, hruns, hfield⟩ := ih h.2.2 hfield
    exact ⟨id :: before, after, by rw [runs, hruns, List.cons_append], hfield⟩
  | field beginning code separator result ending rest ihCode ihResult ihRest =>
    obtain ⟨hbeginning, hcode, hseparator, hresult, hending, hrest⟩ := h
    simp only [fields, List.mem_cons, List.mem_append] at hfield
    rcases hfield with rfl | (hfield | hfield) | hfield
    · exact ⟨[], rest.runs, rfl, hbeginning, hcode, hseparator, hresult, hending⟩
    · obtain ⟨before, after, hruns, hfield⟩ := ihCode hcode hfield
      refine ⟨beginning.run :: before,
        after ++ separator.run :: (result.runs ++ [ending.run]) ++ rest.runs, ?_, hfield⟩
      simp [runs, hruns]
    · obtain ⟨before, after, hruns, hfield⟩ := ihResult hresult hfield
      refine ⟨beginning.run :: (code.runs ++ separator.run :: before),
        after ++ [ending.run] ++ rest.runs, ?_, hfield⟩
      simp [runs, hruns]
    · obtain ⟨before, after, hruns, hfield⟩ := ihRest hrest hfield
      refine ⟨beginning.run :: (code.runs ++ separator.run :: (result.runs ++ [ending.run])) ++
        before, after, ?_, hfield⟩
      simp [runs, hruns]

/-- A part that is in no field of a passage divides it into two passages. -/
lemma exists_of_mem_parts (h : passage.Stands d) {part : NodeId} (hpart : part ∈ passage.parts) :
    ∃ (run : NodeId) (before after : Passage), passage.runs = before.runs ++ run :: after.runs ∧
      before.Stands d ∧ d.Holds run (some part) ∧ d.fieldMark? part = none ∧ after.Stands d ∧
        passage.fields = before.fields ++ after.fields := by
  induction passage with
  | nil => cases hpart
  | run id part' rest ih =>
    obtain ⟨hholds, hnone, hrest⟩ := h
    rcases List.mem_append.1 hpart with hmem | hmem
    · obtain rfl := Option.mem_toList.1 hmem
      exact ⟨id, nil, rest, rfl, trivial, hholds, hnone part rfl, hrest, rfl⟩
    · obtain ⟨run, before, after, hruns, hbefore, hthere⟩ := ih hrest hmem
      exact ⟨run, .run id part' before, after, by rw [runs, hruns]; rfl,
        ⟨hholds, hnone, hbefore⟩, hthere⟩
  | field beginning code separator result ending rest _ _ ih =>
    obtain ⟨hbeginning, hcode, hseparator, hresult, hending, hrest⟩ := h
    obtain ⟨run, before, after, hruns, hbefore, hholds, hnone, hafter, hfields⟩ := ih hrest hpart
    refine ⟨run, .field beginning code separator result ending before, after, ?_,
      ⟨hbeginning, hcode, hseparator, hresult, hending, hbefore⟩, hholds, hnone, hafter, ?_⟩
    · simp [runs, hruns]
    · simp [fields, hfields]

end Passage

namespace Document

variable {d : Document}

/-! ## Elements beside an element -/

section

variable {parent id : NodeId} {before after : List NodeId}

lemma notMem_of_filter (hd : d.WellFormed)
    (h : (d.children parent).filter d.isElement = before ++ id :: after) : id ∉ before ++ after :=
  (List.nodup_middle.1 (h ▸ (hd.nodup_children parent).filter _)).notMem

lemma followingElements_of_filter (hd : d.WellFormed)
    (h : (d.children parent).filter d.isElement = before ++ id :: after) :
    d.followingElements id = after := by
  obtain ⟨front, back, hchildren, -, hback⟩ := List.filter_eq_append_iff.1 h
  obtain ⟨skipped, rest, rfl, -, -, hrest⟩ := List.filter_eq_cons_iff.1 hback
  rw [← List.append_assoc] at hchildren
  rw [followingElements, followingSiblings_eq hd hchildren, hrest]

lemma precedingElements_of_filter (hd : d.WellFormed)
    (h : (d.children parent).filter d.isElement = before ++ id :: after) :
    d.precedingElements id = before.reverse := by
  obtain ⟨front, back, hchildren, hfront, hback⟩ := List.filter_eq_append_iff.1 h
  obtain ⟨skipped, rest, rfl, hskipped, -, -⟩ := List.filter_eq_cons_iff.1 hback
  rw [← List.append_assoc] at hchildren
  have hnone : skipped.filter d.isElement = [] := List.filter_eq_nil_iff.2 hskipped
  rw [precedingElements, precedingSiblings_eq hd hchildren, List.filter_reverse,
    List.filter_append, hfront, hnone, List.append_nil]

end

/-! ## The search -/

lemma locateTriad_eq_ok_iff {instruction : NodeId} {triad : FieldTriad} :
    d.locateTriad instruction = .ok triad ↔
      d.locatePrevious? instruction .beginning = some triad.beginning ∧
        d.locateNext? instruction .separator = some triad.separator ∧
          d.locateNext? triad.separator .ending = some triad.ending := by
  obtain ⟨beginning, separator, ending⟩ := triad
  unfold locateTriad
  constructor
  · intro h
    split at h
    · cases h
    next hbeginning =>
      split at h
      · cases h
      next hseparator =>
        split at h
        · cases h
        next hending =>
          cases h
          exact ⟨hbeginning, hseparator, hending⟩
  · rintro ⟨hbeginning, hseparator, hending⟩
    simp only [hbeginning, hseparator, hending]

/-- The marks that are found for a part of the code of a field, its instruction for one, are the
marks of this field exactly if there is no other field inside it. -/
theorem locateTriad_eq_triad_iff (hd : d.WellFormed) {parent : NodeId} {front back : List NodeId}
    {passage : Passage}
    (hruns : (d.children parent).filter d.isElement = front ++ (passage.runs ++ back))
    (hstands : passage.Stands d)
    {field : MarkedField} (hfield : field ∈ passage.fields) {instruction : NodeId}
    (hinstruction : instruction ∈ field.code.parts) :
    d.locateTriad instruction = .ok field.triad ↔
      field.code.fields = [] ∧ field.result.fields = [] := by
  obtain ⟨before, after, hplace, hbeginning, hcode, hseparator, hresult, hending⟩ :=
    Passage.exists_of_mem_fields hstands hfield
  obtain ⟨run, left, right, hcodeRuns, hleft, hholds, hnone, hright, hfields⟩ :=
    Passage.exists_of_mem_parts hcode hinstruction
  have hparent : d.parent instruction = some run := hholds.2 _ rfl
  rw [hplace, MarkedField.runs, hcodeRuns] at hruns
  have hatBeginning : (d.children parent).filter d.isElement =
      (front ++ before) ++ field.beginning.run :: (left.runs ++ run :: right.runs ++
        field.separator.run :: (field.result.runs ++ field.ending.run :: (after ++ back))) := by
    rw [hruns]
    simp
  have hatRun : (d.children parent).filter d.isElement =
      (front ++ before ++ field.beginning.run :: left.runs) ++ run :: (right.runs ++
        field.separator.run :: (field.result.runs ++ field.ending.run :: (after ++ back))) := by
    rw [hruns]
    simp
  have hatSeparator : (d.children parent).filter d.isElement =
      (front ++ before ++ field.beginning.run :: (left.runs ++ run :: right.runs)) ++
        field.separator.run :: (field.result.runs ++ field.ending.run :: (after ++ back)) := by
    rw [hruns]
    simp
  have hatEnding : (d.children parent).filter d.isElement =
      (front ++ before ++ field.beginning.run :: (left.runs ++ run :: right.runs ++
        field.separator.run :: field.result.runs)) ++ field.ending.run :: (after ++ back) := by
    rw [hruns]
    simp
  have hprevious : d.locatePrevious? instruction .beginning = some field.beginning.mark ↔
      left.fields = [] := by
    have hown : d.markIn? .beginning run = none := by
      rw [hholds.markIn?_eq]
      simp [hnone]
    rw [locatePrevious?, hparent]
    simp only [List.findSome?_cons, hown]
    rw [precedingElements_of_filter hd hatRun, List.reverse_append, List.reverse_cons,
      List.append_assoc, List.singleton_append]
    exact Passage.findSome?_eq_iff hleft hbeginning (fun _ => List.mem_reverse) fun hmem =>
      notMem_of_filter hd hatBeginning (by simp [hmem])
  have hnext : d.locateNext? instruction .separator = some field.separator.mark ↔
      right.fields = [] := by
    rw [locateNext?, hparent]
    simp only
    rw [followingElements_of_filter hd hatRun]
    exact Passage.findSome?_eq_iff hright hseparator (fun _ => Iff.rfl) fun hmem =>
      notMem_of_filter hd hatSeparator (by simp [hmem])
  have hlast : d.locateNext? field.separator.mark .ending = some field.ending.mark ↔
      field.result.fields = [] := by
    rw [locateNext?, hseparator.parent_eq]
    simp only
    rw [followingElements_of_filter hd hatSeparator]
    exact Passage.findSome?_eq_iff hresult hending (fun _ => Iff.rfl) fun hmem =>
      notMem_of_filter hd hatEnding (by simp [hmem])
  rw [locateTriad_eq_ok_iff, hfields, List.append_eq_nil_iff, and_assoc]
  exact and_congr hprevious (and_congr hnext hlast)

/-- The inner one of two fields that have no result gets its own marks. -/
theorem locateTriad_eq_triad_inner :
    let d := ofForest [.word "p" [] ([.mark .beginning, .instruction "IF", .mark .beginning,
      .instruction "X", .mark .separator, .mark .ending, .mark .separator, .mark .ending].map
        RunContent.tree)]
    let code : Passage := .run 9 (some 10) .nil
    let outerCode : Passage := .run 4 (some 5) (.field ⟨7, 8⟩ code ⟨12, 13⟩ .nil ⟨14, 15⟩ .nil)
    let passage : Passage := .field ⟨2, 3⟩ outerCode ⟨16, 17⟩ .nil ⟨18, 19⟩ .nil
    let field : MarkedField := ⟨⟨7, 8⟩, code, ⟨12, 13⟩, .nil, ⟨14, 15⟩⟩
    d.WellFormed ∧ (d.children 1).filter d.isElement = [] ++ (passage.runs ++ []) ∧
      passage.Stands d ∧ field ∈ passage.fields ∧ 10 ∈ field.code.parts ∧
        d.locateTriad 10 = .ok ⟨8, 13, 15⟩ := by
  intro d code outerCode passage field
  have hd : d.WellFormed := (displays_ofForest _).wellFormed
  have hruns : (d.children 1).filter d.isElement = [] ++ (passage.runs ++ []) := by decide
  have hstands : passage.Stands d := by
    simp only [passage, outerCode, code, Passage.Stands, HoldsMark, Holds]
    decide
  have hfield : field ∈ passage.fields := by decide
  have hpart : 10 ∈ field.code.parts := by decide
  exact ⟨hd, hruns, hstands, hfield, hpart,
    (locateTriad_eq_triad_iff hd hruns hstands hfield hpart).2 ⟨rfl, rfl⟩⟩

/-- The outer field has another one in its code, and the marks that are found for its instruction
are its own first mark with the other two marks of the inner field. -/
theorem not_locateTriad_eq_triad_outer :
    ¬ ∀ (d : Document) (parent : NodeId) (passage : Passage), d.WellFormed →
      (d.children parent).filter d.isElement = passage.runs → passage.Stands d →
        ∀ field ∈ passage.fields, ∀ instruction ∈ field.code.parts,
          d.locateTriad instruction = .ok field.triad := by
  intro h
  let d := ofForest [.word "p" [] ([.mark .beginning, .instruction "IF", .mark .beginning,
    .instruction "X", .mark .separator, .mark .ending, .mark .separator, .mark .ending].map
      RunContent.tree)]
  let code : Passage := .run 4 (some 5)
    (.field ⟨7, 8⟩ (.run 9 (some 10) .nil) ⟨12, 13⟩ .nil ⟨14, 15⟩ .nil)
  let passage : Passage := .field ⟨2, 3⟩ code ⟨16, 17⟩ .nil ⟨18, 19⟩ .nil
  have hstands : passage.Stands d := by
    simp only [passage, code, Passage.Stands, HoldsMark, Holds]
    decide
  have hown := h d 1 passage (displays_ofForest _).wellFormed (by decide) hstands
    ⟨⟨2, 3⟩, code, ⟨16, 17⟩, .nil, ⟨18, 19⟩⟩ (by decide) 5 (by decide)
  have hfound : d.locateTriad 5 = .ok ⟨3, 13, 15⟩ := by decide
  rw [hfound] at hown
  revert hown
  decide

end Document

end WordFields
