import WordFields.Proofs.Field.Agreement
import WordFields.Proofs.Field.Outline
import WordFields.Proofs.Field.Repetition
import WordFields.Proofs.Word.Passage

/-!
# Reading a shortened sequence of runs

A run without marks, instruction and text adds nothing to a field, so it may be left out of the
sequence of runs (`Document.Shortens`).  There is one exception: a field opens where its instruction
is in the run after its first mark, so nothing may be left out between these two.

Fields are then read alike from the long and from the short sequence.  Where the reading of the long
one is at a run that is left out, that of the short one waits; the two indexes stay `Aligned`, and
the contents keep the same outline.  So the same descriptions are found
(`Shortens.describe_readIfsFrom`); only the indexes in problems differ.
-/

namespace WordFields

/-! ## Outlines -/

namespace IfContent

variable {content content' : IfContent}

lemma outline_add_congr (h : content'.outline = content.outline) {entry entry' : BranchEntry}
    {item : BranchItem} (hentry : entry.describe = [item]) (hentry' : entry'.describe = [item]) :
    (content'.add entry').outline = (content.add entry).outline := by
  rw [outline_add content' hentry', outline_add content hentry, h]

lemma isClosed_congr (h : content'.outline = content.outline) :
    content'.isClosed = content.isClosed :=
  congrArg Outline.isClosed h

lemma outline_addRun_congr (h : content'.outline = content.outline) (options : Options)
    (run : NodeId) (text : String) :
    (content'.addRun options run text).outline = (content.addRun options run text).outline := by
  unfold addRun
  split
  · rw [outline_add_run, outline_add_run, h]
  · exact outline_add_congr h rfl rfl

lemma outline_addFragment_congr (h : content'.outline = content.outline) (options : Options)
    (text : List Char) :
    (content'.addFragment options text).outline = (content.addFragment options text).outline := by
  unfold addFragment
  rw [isClosed_congr h]
  split
  · exact h
  · exact outline_add_congr h rfl rfl

lemma outline_addMarker?_congr (h : content'.outline = content.outline) (options : Options)
    (marker : Marker) :
    (content'.addMarker? options marker).map outline =
      (content.addMarker? options marker).map outline := by
  obtain ⟨inTrue, seenElse, isClosed, ifTrue, ifFalse, markerRuns⟩ := content
  obtain ⟨inTrue', seenElse', isClosed', ifTrue', ifFalse', markerRuns'⟩ := content'
  simp only [outline, Outline.mk.injEq] at h
  obtain ⟨rfl, rfl, rfl, htrue, hfalse⟩ := h
  unfold addMarker?
  grind [outline]

lemma outline_addPieces?_congr (h : content'.outline = content.outline) (options : Options)
    (pieces : List Piece) :
    (addPieces? options content' pieces).map (fun read => read.2.outline) =
      (addPieces? options content pieces).map fun read => read.2.outline := by
  induction pieces generalizing content content' with
  | nil => exact congrArg some h
  | cons piece pieces ih =>
    cases piece with
    | text text =>
      have hrest := ih (outline_addFragment_congr h options text)
      simpa [addPieces?, Function.comp_def] using hrest
    | marker marker =>
      have hmarker := outline_addMarker?_congr h options marker
      rw [addPieces?, addPieces?]
      cases hread : content.addMarker? options marker with
      | none =>
        rw [hread] at hmarker
        rw [Option.map_eq_none_iff.1 hmarker]
      | some after =>
        rw [hread] at hmarker
        obtain ⟨after', hread', houtline⟩ := Option.map_eq_some_iff.1 hmarker
        rw [hread']
        exact ih houtline

lemma outline_addMarkerRun?_congr (h : content'.outline = content.outline) (options : Options)
    (run : NodeId) (texts : List String) :
    Option.Rel (fun after after' => after'.outline = after.outline)
      (content.addMarkerRun? options run texts) (content'.addMarkerRun? options run texts) := by
  have hpieces := outline_addPieces?_congr h options
    (texts.flatMap fun text => Piece.ofText text.toList)
  unfold addMarkerRun?
  cases hread : addPieces? options content _ with
  | none =>
    rw [hread] at hpieces
    rw [Option.map_eq_none_iff.1 hpieces]
    exact .none
  | some read =>
    rw [hread] at hpieces
    obtain ⟨read', hread', houtline⟩ := Option.map_eq_some_iff.1 hpieces
    rw [hread']
    exact .some houtline

end IfContent

/-! ## Aligned indexes -/

/-- Whether an index of a list and one of the list that is left of it after a filter have the same
items ahead. -/
def Aligned {α : Type} (items : List α) (stay : α → Bool) (index index' : Nat) : Prop :=
  (items.filter stay).drop index' = (items.drop index).filter stay

namespace Aligned

variable {α : Type} {items : List α} {stay : α → Bool} {index index' : Nat} {item : α}

lemma zero (items : List α) (stay : α → Bool) : Aligned items stay 0 0 :=
  rfl

lemma drop_eq_cons (hitem : items[index]? = some item) :
    items.drop index = item :: items.drop (index + 1) := by
  obtain ⟨hlt, rfl⟩ := List.getElem?_eq_some_iff.1 hitem
  exact List.drop_eq_getElem_cons hlt

/-- The short list waits at an item that is left out. -/
lemma skip (h : Aligned items stay index index') (hitem : items[index]? = some item)
    (hout : stay item = false) : Aligned items stay (index + 1) index' := by
  unfold Aligned at h ⊢
  rw [h, drop_eq_cons hitem, List.filter_cons_of_neg (by simp [hout])]

lemma drop_filter (h : Aligned items stay index index') (hitem : items[index]? = some item)
    (hstay : stay item = true) :
    (items.filter stay).drop index' = item :: (items.drop (index + 1)).filter stay := by
  unfold Aligned at h
  rw [h, drop_eq_cons hitem, List.filter_cons_of_pos hstay]

lemma getElem?_filter (h : Aligned items stay index index') (hitem : items[index]? = some item)
    (hstay : stay item = true) : (items.filter stay)[index']? = some item :=
  getElem?_of_drop (h.drop_filter hitem hstay)

lemma succ (h : Aligned items stay index index') (hitem : items[index]? = some item)
    (hstay : stay item = true) : Aligned items stay (index + 1) (index' + 1) := by
  have hdrop : (items.filter stay).drop index' =
      [item] ++ (items.drop (index + 1)).filter stay := h.drop_filter hitem hstay
  exact drop_of_drop hdrop

lemma length_le (h : Aligned items stay index index') (hend : items.length ≤ index) :
    (items.filter stay).length ≤ index' := by
  unfold Aligned at h
  rw [List.drop_eq_nil_of_le hend] at h
  exact List.drop_eq_nil_iff.1 h

/-- The place of an item that stays, in both lists. -/
lemma idxOf? [BEq α] [LawfulBEq α] {ahead : List α} (hstay : item ∈ ahead → stay item = true) :
    (ahead.idxOf? item = none ∧ (ahead.filter stay).idxOf? item = none) ∨
      ∃ place place', ahead.idxOf? item = some place ∧
        (ahead.filter stay).idxOf? item = some place' ∧
          (ahead.filter stay).drop (place' + 1) = (ahead.drop (place + 1)).filter stay := by
  induction ahead with
  | nil => exact .inl ⟨rfl, rfl⟩
  | cons first ahead ih =>
    by_cases hfirst : first = item
    · subst hfirst
      refine .inr ⟨0, 0, by simp [List.idxOf?_cons], ?_, ?_⟩
      · rw [List.filter_cons_of_pos (hstay List.mem_cons_self)]
        simp [List.idxOf?_cons]
      · rw [List.filter_cons_of_pos (hstay List.mem_cons_self)]
        rfl
    · have hrest := ih fun hmem => hstay (List.mem_cons_of_mem _ hmem)
      cases hkeep : stay first with
      | true =>
        rw [List.filter_cons_of_pos hkeep, List.idxOf?_cons, List.idxOf?_cons,
          beq_eq_false_iff_ne.2 hfirst]
        rcases hrest with ⟨hnone, hnone'⟩ | ⟨place, place', hplace, hplace', hdrop⟩
        · rw [hnone, hnone']
          exact .inl ⟨rfl, rfl⟩
        · rw [hplace, hplace']
          exact .inr ⟨place + 1, place' + 1, rfl, rfl, hdrop⟩
      | false =>
        rw [List.filter_cons_of_neg (by simp [hkeep]), List.idxOf?_cons,
          beq_eq_false_iff_ne.2 hfirst]
        rcases hrest with ⟨hnone, hnone'⟩ | ⟨place, place', hplace, hplace', hdrop⟩
        · rw [hnone]
          exact .inl ⟨rfl, hnone'⟩
        · rw [hplace]
          exact .inr ⟨place + 1, place', rfl, hplace', hdrop⟩

end Aligned

namespace Document

variable {d : Document} {options : Options} {runs : List NodeId} {stay : NodeId → Bool}

/-! ## Runs without parts of fields -/

namespace IsIdle

variable {run : NodeId}

lemma wordDescendants_eq_nil (h : d.IsIdle run) {name : String}
    (hname : name ∈ ["fldChar", "instrText", "t"]) : d.wordDescendants run name = [] := by
  refine List.filter_eq_nil_iff.2 fun x hx hword => ?_
  have hpart := isFieldPart_iff.2 ⟨name, hname, hword⟩
  rw [h x hx] at hpart
  cases hpart

lemma firstWordDescendant?_eq_none (h : d.IsIdle run) {name : String}
    (hname : name ∈ ["fldChar", "instrText", "t"]) : d.firstWordDescendant? run name = none := by
  rw [firstWordDescendant?_eq_head?, h.wordDescendants_eq_nil hname]
  rfl

lemma runMark?_eq_none (h : d.IsIdle run) : d.runMark? run = none := by
  rw [runMark?, h.firstWordDescendant?_eq_none (by decide)]
  rfl

lemma runInstruction?_eq_none (h : d.IsIdle run) : d.runInstruction? run = none :=
  h.firstWordDescendant?_eq_none (by decide)

lemma hasMarker_eq_false (h : d.IsIdle run) : d.hasMarker run = false := by
  rw [hasMarker, runTexts, h.wordDescendants_eq_nil (by decide)]
  rfl

lemma runText_eq (h : d.IsIdle run) : d.runText run = "" := by
  rw [runText, h.wordDescendants_eq_nil (by decide)]
  rfl

end IsIdle

/-! ## The equations of a scan -/

section

variable {index steps : Nat} {reported : List Nat} {run : NodeId}

lemma readIfsFrom_at_end (hend : runs.length ≤ index) :
    d.readIfsFrom options runs steps index reported = ([], []) := by
  cases steps with
  | zero => rfl
  | succ steps => rw [readIfsFrom, if_pos hend]

lemma readIfsFrom_of_not_opens (hrun : runs[index]? = some run)
    (hopens : d.opensIf runs index = false) :
    d.readIfsFrom options runs (steps + 1) index reported =
      d.readIfsFrom options runs steps (index + 1) reported := by
  have hlt := (List.getElem?_eq_some_iff.1 hrun).1
  rw [readIfsFrom, if_neg (by omega), if_neg (by simp [hopens])]

lemma readIfsFrom_of_ok (hrun : runs[index]? = some run) (hopens : d.opensIf runs index = true)
    {field : IfSpan} (hread : d.readIf options runs index = .ok field) :
    (d.readIfsFrom options runs (steps + 1) index reported).1 =
      field :: (d.readIfsFrom options runs steps field.next reported).1 := by
  have hlt := (List.getElem?_eq_some_iff.1 hrun).1
  rw [readIfsFrom, if_neg (by omega), if_pos hopens, hread]

lemma exists_readIfsFrom_of_error (steps : Nat) (reported : List Nat)
    (hrun : runs[index]? = some run) (hopens : d.opensIf runs index = true) {p : IfProblem}
    (hread : d.readIf options runs index = .error p) :
    ∃ later, (d.readIfsFrom options runs (steps + 1) index reported).1 =
      (d.readIfsFrom options runs steps (index + 1) later).1 := by
  have hlt := (List.getElem?_eq_some_iff.1 hrun).1
  rw [readIfsFrom, if_neg (by omega), if_pos hopens, hread]
  simp only
  split
  · exact ⟨_, rfl⟩
  · exact ⟨_, rfl⟩

end

/-! ## Shortened sequences -/

/-- Whether no run is left out right between the first mark of an IF field and its instruction. -/
def Gapless (d : Document) (runs : List NodeId) (stay : NodeId → Bool) : Prop :=
  ∀ before first gap next after instruction, runs = before ++ first :: (gap ++ next :: after) →
    d.runMark? first = some .beginning → d.runInstruction? next = some instruction →
      Instruction.isConditional (d.textContent instruction).toList = true →
        (∀ run ∈ gap, stay run = false) → gap = []

/-- Whether the runs that do not stay can be left out. -/
structure Shortens (d : Document) (runs : List NodeId) (stay : NodeId → Bool) : Prop where
  idle : ∀ run ∈ runs, stay run = false → d.IsIdle run
  gapless : d.Gapless runs stay

/-- Headers with the same condition, behind which the same runs are ahead. -/
structure SameHeader (runs : List NodeId) (stay : NodeId → Bool) (header header' : IfHeader) :
    Prop where
  condition_eq : header'.condition = header.condition
  aligned : Aligned runs stay (header.codeEnd + 1) (header'.codeEnd + 1)

/-- Contents with the same outline, behind which the same runs are ahead. -/
structure SameContent (runs : List NodeId) (stay : NodeId → Bool) (read read' : IfContent × Nat) :
    Prop where
  outline_eq : read'.1.outline = read.1.outline
  aligned : Aligned runs stay read.2 read'.2

/-- Fields with the same description, behind which the same runs are ahead. -/
structure SameField (runs : List NodeId) (stay : NodeId → Bool) (field field' : IfSpan) :
    Prop where
  describe_eq : field'.describe = field.describe
  aligned : Aligned runs stay field.next field'.next

namespace Shortens

variable {index index' : Nat} {run : NodeId}

lemma stay_of_not_isIdle (h : d.Shortens runs stay) (hrun : run ∈ runs) (hnot : ¬ d.IsIdle run) :
    stay run = true := by
  by_contra hout
  exact hnot (h.idle run hrun (Bool.not_eq_true _ ▸ hout))

lemma stay_of_runMark? (h : d.Shortens runs stay) (hrun : run ∈ runs) {mark : FieldMark}
    (hmark : d.runMark? run = some mark) : stay run = true :=
  h.stay_of_not_isIdle hrun fun hidle => Option.some_ne_none mark
    (hmark.symm.trans hidle.runMark?_eq_none)

lemma stay_of_runInstruction? (h : d.Shortens runs stay) (hrun : run ∈ runs) {instruction : NodeId}
    (hinstruction : d.runInstruction? run = some instruction) : stay run = true :=
  h.stay_of_not_isIdle hrun fun hidle => Option.some_ne_none instruction
    (hinstruction.symm.trans hidle.runInstruction?_eq_none)

/-- The run that holds a field character stays. -/
lemma stay_of_enclosingRun? (h : d.Shortens runs stay) (hd : d.WellFormed) (hrun : run ∈ runs)
    {mark : NodeId} (hmark : d.isWord mark "fldChar" = true)
    (hholds : d.enclosingRun? mark = some run) : stay run = true := by
  refine h.stay_of_not_isIdle hrun fun hidle => ?_
  obtain ⟨hplace, hword, -⟩ := hd.nearest?_eq_some_iff.1 hholds
  rcases hplace with rfl | hbelow
  · exact absurd (name_eq_of_isWord hword hmark) (by decide)
  · have hpart := isFieldPart_iff.2 ⟨"fldChar", by decide, hmark⟩
    rw [hidle mark (hd.mem_descendants.2 hbelow)] at hpart
    cases hpart

lemma opensIf_of_not_stay (h : d.Shortens runs stay) (hrun : runs[index]? = some run)
    (hout : stay run = false) : d.opensIf runs index = false := by
  by_contra hopens
  obtain ⟨run', -, -, hrun', -, hmark, -⟩ := opensIf_iff.1 (Bool.not_eq_false _ ▸ hopens)
  rw [hrun, Option.some.injEq] at hrun'
  subst hrun'
  rw [h.stay_of_runMark? (List.mem_of_getElem? hrun) hmark] at hout
  cases hout

/-- The run after the first mark of an IF field stays. -/
lemma succ_of_opensIf (h : d.Shortens runs stay) (halign : Aligned runs stay index index')
    (hopens : d.opensIf runs index = true) :
    ∃ run next, runs[index]? = some run ∧ runs[index + 1]? = some next ∧
      (runs.filter stay)[index']? = some run ∧ (runs.filter stay)[index' + 1]? = some next ∧
        Aligned runs stay (index + 2) (index' + 2) := by
  obtain ⟨run, next, instruction, hrun, hnext, hmark, hinstruction, -⟩ := opensIf_iff.1 hopens
  have hstay := h.stay_of_runMark? (List.mem_of_getElem? hrun) hmark
  have hstay' := h.stay_of_runInstruction? (List.mem_of_getElem? hnext) hinstruction
  have halign' := halign.succ hrun hstay
  exact ⟨run, next, hrun, hnext, halign.getElem?_filter hrun hstay,
    halign'.getElem?_filter hnext hstay', halign'.succ hnext hstay'⟩

lemma opensIf_eq (h : d.Shortens runs stay) (halign : Aligned runs stay index index')
    (hrun : runs[index]? = some run) (hstay : stay run = true) :
    d.opensIf (runs.filter stay) index' = d.opensIf runs index := by
  rw [Bool.eq_iff_iff]
  constructor
  · intro hopens
    obtain ⟨first, next, instruction, hfirst, hnext, hmark, hinstruction, hconditional⟩ :=
      opensIf_iff.1 hopens
    rw [halign.getElem?_filter hrun hstay, Option.some.injEq] at hfirst
    subst hfirst
    have hdrop : (runs.filter stay).drop (index' + 1) =
        next :: (runs.filter stay).drop (index' + 1 + 1) := Aligned.drop_eq_cons hnext
    rw [halign.succ hrun hstay] at hdrop
    obtain ⟨gap, after, hruns, hgap, -, -⟩ := List.filter_eq_cons_iff.1 hdrop
    have hsplit : runs = runs.take index ++ run :: (gap ++ next :: after) := by
      rw [← hruns, ← Aligned.drop_eq_cons hrun, List.take_append_drop]
    have hnil := h.gapless _ run gap next after instruction hsplit hmark hinstruction hconditional
      fun x hx => Bool.not_eq_true _ ▸ hgap x hx
    subst hnil
    exact opensIf_iff.2 ⟨run, next, instruction, hrun, getElem?_of_drop hruns, hmark, hinstruction,
      hconditional⟩
  · intro hopens
    obtain ⟨first, next, hfirst, hnext, hfirst', hnext', -⟩ := h.succ_of_opensIf halign hopens
    rw [opensIf, hfirst, hnext] at hopens
    rw [opensIf, hfirst', hnext']
    exact hopens

/-! ## Reading

Both readings fail, or both succeed and go on at aligned indexes.  Problems are not compared, since
they name indexes. -/

lemma codeEnd? (h : d.Shortens runs stay) (hd : d.WellFormed)
    (halign : Aligned runs stay (index + 2) (index' + 2)) {mark : NodeId}
    (hmark : d.isWord mark "fldChar" = true) :
    Option.Rel (fun codeEnd codeEnd' => Aligned runs stay (codeEnd + 1) (codeEnd' + 1))
      (d.codeEnd? runs index mark) (d.codeEnd? (runs.filter stay) index' mark) := by
  unfold Document.codeEnd?
  cases hrun : d.enclosingRun? mark with
  | none => exact .none
  | some run =>
    have hstay : run ∈ runs.drop (index + 2) → stay run = true := fun hmem =>
      h.stay_of_enclosingRun? hd (List.mem_of_mem_drop hmem) hmark hrun
    unfold Aligned at halign
    rw [Option.bind_some, Option.bind_some, halign]
    rcases Aligned.idxOf? hstay with ⟨hnone, hnone'⟩ | ⟨place, place', hplace, hplace', hdrop⟩
    · rw [hnone, hnone']
      exact .none
    · rw [hplace, hplace']
      refine .some ?_
      rw [← halign, List.drop_drop, List.drop_drop] at hdrop
      have hindex : place + index + 2 + 1 = index + 2 + (place + 1) := by omega
      have hindex' : place' + index' + 2 + 1 = index' + 2 + (place' + 1) := by omega
      unfold Aligned
      simp only [hindex, hindex']
      exact hdrop

lemma readHeader (h : d.Shortens runs stay) (hd : d.WellFormed)
    (halign : Aligned runs stay index index') (hopens : d.opensIf runs index = true) :
    Outcome (fun _ _ => True) (SameHeader runs stay) (d.readHeader runs index)
      (d.readHeader (runs.filter stay) index') := by
  obtain ⟨run, next, hrun, hnext, hrun', hnext', halign'⟩ := h.succ_of_opensIf halign hopens
  have hat : d.instructionAt (runs.filter stay) index' = d.instructionAt runs index := by
    rw [instructionAt, instructionAt, hrun, hnext, hrun', hnext']
  unfold Document.readHeader
  rw [hat]
  generalize d.instructionAt runs index = at'
  obtain ⟨node, instruction⟩ := at'
  simp only
  split
  next => exact .error trivial
  next condition _ =>
    split
    next => exact .error trivial
    next triad htriad =>
      have hmark : d.isWord triad.ending "fldChar" = true := by
        obtain ⟨-, -, hending⟩ := locateTriad_eq_ok_iff.1 htriad
        exact isWord_of_locateNext? hending
      have hend := h.codeEnd? hd halign' hmark
      generalize d.codeEnd? runs index triad.ending = codeEnd at hend ⊢
      generalize d.codeEnd? (runs.filter stay) index' triad.ending = codeEnd' at hend ⊢
      cases hend with
      | none => exact .error trivial
      | some hend => exact .ok ⟨rfl, hend⟩
  next => exact .error trivial

section

variable {nested nested' : Nat → Except IfProblem IfSpan} {problem problem' : IfFault → IfProblem}
  {steps steps' : Nat} {content content' : IfContent}

/-- Both readings stop where the content is closed, and fail at the end of the runs. -/
lemma readContent_stop (halign : Aligned runs stay index index')
    (houtline : content'.outline = content.outline)
    (hstop : content.isClosed = true ∨ runs[index]? = none) :
    Outcome (fun _ _ => True) (SameContent runs stay)
      (d.readContent options runs nested problem steps index content)
      (d.readContent options (runs.filter stay) nested' problem' steps' index' content') := by
  have hclosed := IfContent.isClosed_congr houtline
  cases hopen : content.isClosed with
  | true =>
    rw [readContent_of_closed hopen, readContent_of_closed (hclosed.trans hopen)]
    exact .ok ⟨houtline, halign⟩
  | false =>
    have hend := hstop.resolve_left (by simp [hopen])
    have hlength := halign.length_le (List.getElem?_eq_none_iff.1 hend)
    rw [readContent_at_end hopen hend,
      readContent_at_end (hclosed.trans hopen) (List.getElem?_eq_none hlength)]
    exact .error trivial

/-- Both readings take a run that stays in the same way. -/
lemma readContent_stay (h : d.Shortens runs stay) (halign : Aligned runs stay index index')
    (houtline : content'.outline = content.outline) (hopen : content.isClosed = false)
    (hrun : runs[index]? = some run) (hstay : stay run = true)
    (hnested : d.opensIf runs index = true →
      Outcome (fun _ _ => True) (SameField runs stay) (nested index) (nested' index'))
    (hrest : ∀ later later' after after', (later = index + 1 ∧ later' = index' + 1 ∨
        ∃ field field', nested index = .ok field ∧ nested' index' = .ok field' ∧
          later = field.next ∧ later' = field'.next) →
      Aligned runs stay later later' → after'.outline = after.outline →
        Outcome (fun _ _ => True) (SameContent runs stay)
          (d.readContent options runs nested problem steps later after)
          (d.readContent options (runs.filter stay) nested' problem' steps' later' after')) :
    Outcome (fun _ _ => True) (SameContent runs stay)
      (d.readContent options runs nested problem (steps + 1) index content)
      (d.readContent options (runs.filter stay) nested' problem' (steps' + 1) index' content') := by
  have hopen' := (IfContent.isClosed_congr houtline).trans hopen
  have halign' := halign.succ hrun hstay
  rw [readContent_succ hopen hrun, readContent_succ hopen' (halign.getElem?_filter hrun hstay),
    h.opensIf_eq halign hrun hstay]
  cases hopens : d.opensIf runs index with
  | true =>
    have hfield := hnested hopens
    cases hread : nested index with
    | error p =>
      obtain ⟨p', hread', -⟩ := (hread ▸ hfield).exists_error
      rw [hread']
      exact .error trivial
    | ok field =>
      obtain ⟨field', hread', hsame⟩ := (hread ▸ hfield).exists_ok
      rw [hread']
      refine hrest _ _ _ _ (.inr ⟨field, field', hread, hread', rfl, rfl⟩) hsame.aligned ?_
      exact IfContent.outline_add_congr houtline rfl
        (show [BranchItem.field field'.describe] = _ by rw [hsame.describe_eq])
  | false =>
    cases hmarked : d.hasMarker run with
    | true =>
      have hread := IfContent.outline_addMarkerRun?_congr houtline options run
        ((d.runTexts run).map Prod.snd)
      generalize content.addMarkerRun? options run _ = read at hread ⊢
      generalize content'.addMarkerRun? options run _ = read' at hread ⊢
      cases hread with
      | none => exact .error trivial
      | some hread => exact hrest _ _ _ _ (.inl ⟨rfl, rfl⟩) halign' hread
    | false =>
      exact hrest _ _ _ _ (.inl ⟨rfl, rfl⟩) halign'
        (IfContent.outline_addRun_congr houtline options run (d.runText run))

/-- Contents with the same outline stay so while the runs are read.  The induction is on the steps
through the long sequence; at a run that is left out only this one takes a step. -/
lemma readContent (h : d.Shortens runs stay) {start : Nat}
    (hprogress : ∀ index field, nested index = .ok field → index < field.next)
    (hprogress' : ∀ index field, nested' index = .ok field → index < field.next)
    (hnested : ∀ index index', start ≤ index → Aligned runs stay index index' →
      d.opensIf runs index = true →
        Outcome (fun _ _ => True) (SameField runs stay) (nested index) (nested' index'))
    (hstart : start ≤ index) (halign : Aligned runs stay index index')
    (houtline : content'.outline = content.outline) (hsteps : runs.length ≤ steps + index)
    (hsteps' : (runs.filter stay).length ≤ steps' + index') :
    Outcome (fun _ _ => True) (SameContent runs stay)
      (d.readContent options runs nested problem steps index content)
      (d.readContent options (runs.filter stay) nested' problem' steps' index' content') := by
  induction steps generalizing index index' steps' content content' with
  | zero =>
    exact readContent_stop halign houtline (.inr (List.getElem?_eq_none (by omega)))
  | succ steps ih =>
    cases hopen : content.isClosed with
    | true => exact readContent_stop halign houtline (.inl hopen)
    | false =>
      cases hrun : runs[index]? with
      | none => exact readContent_stop halign houtline (.inr hrun)
      | some run =>
        cases hstay : stay run with
        | false =>
          have hidle := h.idle run (List.mem_of_getElem? hrun) hstay
          rw [readContent_succ hopen hrun, h.opensIf_of_not_stay hrun hstay,
            hidle.hasMarker_eq_false, hidle.runText_eq]
          refine ih (by omega) (halign.skip hrun hstay) ?_ (by omega) hsteps'
          rw [houtline]
          exact (content.outline_add_run run).symm
        | true =>
          have hlt := (List.getElem?_eq_some_iff.1 (halign.getElem?_filter hrun hstay)).1
          obtain ⟨steps', rfl⟩ : ∃ n, steps' = n + 1 := ⟨steps' - 1, by omega⟩
          refine h.readContent_stay halign houtline hopen hrun hstay (hnested _ _ hstart halign)
            fun later later' after after' hlater halign' houtline' => ?_
          have hboth : index < later ∧ index' < later' := by
            rcases hlater with ⟨rfl, rfl⟩ | ⟨field, field', hread, hread', rfl, rfl⟩
            · exact ⟨Nat.lt_succ_self _, Nat.lt_succ_self _⟩
            · exact ⟨hprogress _ _ hread, hprogress' _ _ hread'⟩
          exact ih (by omega) halign' houtline' (by omega) (by omega)

end

lemma describe_spanOf {outer outer' : List NodeId} {header header' : IfHeader}
    {content content' : IfContent} {next next' : Nat}
    (hcondition : header'.condition = header.condition)
    (houtline : content'.outline = content.outline) :
    (spanOf outer' index' header' content' next').describe =
      (spanOf outer index header content next).describe := by
  have hbranches : describeEntries content'.ifTrue = describeEntries content.ifTrue ∧
      describeEntries content'.ifFalse = describeEntries content.ifFalse :=
    ⟨congrArg Outline.ifTrue houtline, congrArg Outline.ifFalse houtline⟩
  simp only [spanOf, IfSpan.describe, hcondition, hbranches.1, hbranches.2]

lemma readIf (h : d.Shortens runs stay) (hd : d.WellFormed) (options : Options)
    (halign : Aligned runs stay index index') (hopens : d.opensIf runs index = true) :
    Outcome (fun _ _ => True) (SameField runs stay) (d.readIf options runs index)
      (d.readIf options (runs.filter stay) index') := by
  induction hleft : runs.length - index using Nat.strong_induction_on generalizing index index' with
  | _ left ih =>
    have hlt : index < runs.length := by
      obtain ⟨_, _, _, hrun, -⟩ := opensIf_iff.1 hopens
      exact (List.getElem?_eq_some_iff.1 hrun).1
    have hheader := h.readHeader hd halign hopens
    rw [readIf_eq, readIf_eq]
    cases hread : d.readHeader runs index with
    | error p =>
      obtain ⟨p', hread', -⟩ := (hread ▸ hheader).exists_error
      rw [hread']
      exact .error trivial
    | ok header =>
      obtain ⟨header', hread', hsame⟩ := (hread ▸ hheader).exists_ok
      rw [hread']
      have hbounds := readHeader_bounds hread
      have hnested : ∀ later later', header.codeEnd + 1 ≤ later → Aligned runs stay later later' →
          d.opensIf runs later = true →
            Outcome (fun _ _ => True) (SameField runs stay) (d.readIf options runs later)
              (d.readIf options (runs.filter stay) later') :=
        fun later later' hlater halign hopens =>
          ih (runs.length - later) (by omega) halign hopens rfl
      have hcontent : Outcome (fun _ _ => True) (SameContent runs stay)
          (d.readContent options runs (d.readIf options runs)
            (fun fault => ⟨fault, index, header.instruction⟩) runs.length (header.codeEnd + 1) {})
          (d.readContent options (runs.filter stay) (d.readIf options (runs.filter stay))
            (fun fault => ⟨fault, index', header'.instruction⟩) (runs.filter stay).length
            (header'.codeEnd + 1) {}) :=
        h.readContent (fun _ _ => readIf_progress) (fun _ _ => readIf_progress) hnested
          (Nat.le_refl _) hsame.aligned rfl (Nat.le_add_right _ _) (Nat.le_add_right _ _)
      simp only
      generalize d.readContent options runs _ _ _ _ _ = read at hcontent ⊢
      generalize d.readContent options (runs.filter stay) _ _ _ _ _ = read' at hcontent ⊢
      cases hcontent with
      | error _ => exact .error trivial
      | @ok read read' hread =>
        exact .ok ⟨describe_spanOf hsame.condition_eq hread.outline_eq, hread.aligned⟩

/-- The same descriptions are found in a shortened sequence. -/
theorem describe_readIfsFrom (h : d.Shortens runs stay) (hd : d.WellFormed) (options : Options)
    {steps steps' : Nat} (reported reported' : List Nat) (halign : Aligned runs stay index index')
    (hsteps : runs.length ≤ steps + index)
    (hsteps' : (runs.filter stay).length ≤ steps' + index') :
    (d.readIfsFrom options (runs.filter stay) steps' index' reported').1.map IfSpan.describe =
      (d.readIfsFrom options runs steps index reported).1.map IfSpan.describe := by
  induction steps generalizing index index' steps' reported reported' with
  | zero =>
    have hend : runs.length ≤ index := by omega
    rw [readIfsFrom_at_end hend, readIfsFrom_at_end (halign.length_le hend)]
  | succ steps ih =>
    cases hrun : runs[index]? with
    | none =>
      have hend := List.getElem?_eq_none_iff.1 hrun
      rw [readIfsFrom_at_end hend, readIfsFrom_at_end (halign.length_le hend)]
    | some run =>
      cases hstay : stay run with
      | false =>
        rw [readIfsFrom_of_not_opens hrun (h.opensIf_of_not_stay hrun hstay)]
        exact ih _ _ (halign.skip hrun hstay) (by omega) hsteps'
      | true =>
        have hrun' := halign.getElem?_filter hrun hstay
        have hlt := (List.getElem?_eq_some_iff.1 hrun').1
        obtain ⟨steps', rfl⟩ : ∃ n, steps' = n + 1 := ⟨steps' - 1, by omega⟩
        have halign' := halign.succ hrun hstay
        have hopens' := h.opensIf_eq halign hrun hstay
        cases hopens : d.opensIf runs index with
        | false =>
          rw [readIfsFrom_of_not_opens hrun hopens,
            readIfsFrom_of_not_opens hrun' (hopens'.trans hopens)]
          exact ih _ _ halign' (by omega) (by omega)
        | true =>
          have hfield := h.readIf hd options halign hopens
          have hopens' := hopens'.trans hopens
          cases hread : d.readIf options runs index with
          | error p =>
            obtain ⟨p', hread', -⟩ := (hread ▸ hfield).exists_error
            obtain ⟨later, hlater⟩ := exists_readIfsFrom_of_error steps reported hrun hopens
              hread
            obtain ⟨later', hlater'⟩ := exists_readIfsFrom_of_error steps' reported' hrun'
              hopens' hread'
            rw [hlater, hlater']
            exact ih _ _ halign' (by omega) (by omega)
          | ok field =>
            obtain ⟨field', hread', hsame⟩ := (hread ▸ hfield).exists_ok
            have hlater := readIf_progress hread
            have hlater' := readIf_progress hread'
            rw [readIfsFrom_of_ok hrun hopens hread, readIfsFrom_of_ok hrun' hopens' hread',
              List.map_cons, List.map_cons, hsame.describe_eq,
              ih _ _ hsame.aligned (by omega) (by omega)]

end Shortens

end Document

end WordFields
