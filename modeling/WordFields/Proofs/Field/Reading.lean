import Mathlib.Data.List.Perm.Basic
import Mathlib.Tactic.Lemma
import WordFields.Field.Reading

/-!
# What reading an IF field does

`Document.readIf` bounds its recursion twice, by the number of runs for the content of one field
and by the number of runs for fields inside fields.  Both bounds are shown never to be what ends a
reading: every step of the content moves the index forward, and a field inside another starts
behind the runs of the outer field itself.

`ContentStep` says once what one step of the content can do, and `ContentRun` puts steps together
until the field is closed.  `readContent_eq_ok_iff` and `readIf_eq_ok_iff` state the successful
readings with them and without any bound.  Facts about fields that were read are shown for a step
first, and from there for a run by induction.
-/

namespace WordFields

/-- The part of a list from one index up to another. -/
def segment {α : Type} (xs : List α) (start stop : Nat) : List α :=
  (xs.drop start).take (stop - start)

@[simp] lemma segment_self {α : Type} (xs : List α) (start : Nat) : segment xs start start = [] := by
  simp [segment]

lemma segment_append {α : Type} (xs : List α) {start middle stop : Nat} (h₁ : start ≤ middle)
    (h₂ : middle ≤ stop) :
    segment xs start middle ++ segment xs middle stop = segment xs start stop := by
  have hlength : stop - start = (middle - start) + (stop - middle) := by omega
  have hdrop : xs.drop middle = (xs.drop start).drop (middle - start) := by
    rw [List.drop_drop, Nat.add_sub_cancel' h₁]
  simp only [segment]
  rw [hlength, List.take_add, hdrop]

lemma segment_succ {α : Type} {xs : List α} {index : Nat} {x : α} (h : xs[index]? = some x) :
    segment xs index (index + 1) = [x] := by
  obtain ⟨hlt, hx⟩ := List.getElem?_eq_some_iff.1 h
  rw [segment, Nat.add_sub_cancel_left, List.drop_eq_getElem_cons hlt, hx, List.take_succ_cons,
    List.take_zero]

lemma segment_of_drop {α : Type} {xs ys zs : List α} {start : Nat}
    (h : xs.drop start = ys ++ zs) : segment xs start (start + ys.length) = ys := by
  rw [segment, h, Nat.add_sub_cancel_left, List.take_left]

lemma drop_of_drop {α : Type} {xs ys zs : List α} {start : Nat}
    (h : xs.drop start = ys ++ zs) : xs.drop (start + ys.length) = zs := by
  rw [← List.drop_drop, h, List.drop_left]

lemma getElem?_of_drop {α : Type} {xs zs : List α} {x : α} {start : Nat}
    (h : xs.drop start = x :: zs) : xs[start]? = some x := by
  have hget : (xs.drop start)[0]? = some x := by rw [h, List.getElem?_cons_zero]
  rwa [List.getElem?_drop] at hget

namespace Document

variable {d : Document} {options : Options} {runs : List NodeId}

/-! ## The header -/

lemma codeEnd?_bounds {index codeEnd : Nat} {mark : NodeId}
    (h : d.codeEnd? runs index mark = some codeEnd) :
    index + 2 ≤ codeEnd ∧ codeEnd < runs.length := by
  unfold codeEnd? at h
  simp only [Option.bind_eq_some_iff, Option.map_eq_some_iff] at h
  obtain ⟨run, -, offset, hoffset, rfl⟩ := h
  have hlt : offset < (runs.drop (index + 2)).length := by
    rw [List.idxOf?_eq_map_finIdxOf?_val] at hoffset
    obtain ⟨position, -, rfl⟩ := Option.map_eq_some_iff.1 hoffset
    exact position.isLt
  rw [List.length_drop] at hlt
  omega

/-- A header is read exactly where the instruction is that of an IF field, its marks are there, and
the last one is in a run of the document. -/
lemma readHeader_eq_ok_iff {index : Nat} {header : IfHeader} :
    d.readHeader runs index = .ok header ↔
      ∃ node triad, d.instructionAt runs index = (node, header.instruction) ∧
        Instruction.parse header.instruction.toList = .ok (.conditional header.condition) ∧
        d.locateTriad node = .ok triad ∧
        d.codeEnd? runs index triad.ending = some header.codeEnd := by
  obtain ⟨condition, instruction, codeEnd⟩ := header
  constructor
  · intro h
    unfold readHeader at h
    rcases hat : d.instructionAt runs index with ⟨node, text⟩
    simp only [hat] at h
    split at h
    next => cases h
    next condition' hparse =>
      split at h
      next => cases h
      next triad htriad =>
        split at h
        next codeEnd' hcode =>
          cases h
          exact ⟨node, triad, rfl, hparse, htriad, hcode⟩
        next => cases h
    next => cases h
  · rintro ⟨node, triad, hat, hparse, htriad, hcode⟩
    simp only [readHeader, hat, hparse, htriad, hcode]

/-- The runs of a field itself are at least three, and all of them are runs of the document. -/
lemma readHeader_bounds {index : Nat} {header : IfHeader}
    (h : d.readHeader runs index = .ok header) :
    index + 2 ≤ header.codeEnd ∧ header.codeEnd < runs.length := by
  obtain ⟨-, triad, -, -, -, hcode⟩ := readHeader_eq_ok_iff.1 h
  exact codeEnd?_bounds hcode

/-! ## Steps of the content -/

/-- One step of reading the content of a field that is not closed yet: a field inside, a run with
markers, or another run. -/
inductive ContentStep (d : Document) (options : Options) (runs : List NodeId)
    (nested : Nat → Except IfProblem IfSpan) : Nat → IfContent → Nat → IfContent → Prop where
  | nested {index : Nat} {content : IfContent} {run : NodeId} {field : IfSpan}
      (isOpen : content.isClosed = false) (atRun : runs[index]? = some run)
      (opens : d.opensIf runs index = true) (reads : nested index = .ok field) :
      ContentStep d options runs nested index content field.next (content.add (.nested field))
  | markers {index : Nat} {content after : IfContent} {run : NodeId}
      (isOpen : content.isClosed = false) (atRun : runs[index]? = some run)
      (opens : d.opensIf runs index = false) (marked : d.hasMarker run = true)
      (reads : content.addMarkerRun? options run ((d.runTexts run).map Prod.snd) = some after) :
      ContentStep d options runs nested index content (index + 1) after
  | plain {index : Nat} {content : IfContent} {run : NodeId}
      (isOpen : content.isClosed = false) (atRun : runs[index]? = some run)
      (opens : d.opensIf runs index = false) (unmarked : d.hasMarker run = false) :
      ContentStep d options runs nested index content (index + 1)
        (content.addRun options run (d.runText run))

/-- Reading the content of a field step by step until the field is closed. -/
inductive ContentRun (d : Document) (options : Options) (runs : List NodeId)
    (nested : Nat → Except IfProblem IfSpan) : Nat → IfContent → Nat → IfContent → Prop where
  | closed {index : Nat} {content : IfContent} (isClosed : content.isClosed = true) :
      ContentRun d options runs nested index content index content
  | step {index index' next : Nat} {content content' after : IfContent}
      (first : ContentStep d options runs nested index content index' content')
      (rest : ContentRun d options runs nested index' content' next after) :
      ContentRun d options runs nested index content next after

section

variable {nested nested' : Nat → Except IfProblem IfSpan} {problem : IfFault → IfProblem}

lemma readContent_of_closed {steps index : Nat} {content : IfContent}
    (h : content.isClosed = true) :
    d.readContent options runs nested problem steps index content = .ok (content, index) := by
  rw [readContent.eq_def]
  simp only [h, if_true]

lemma readContent_succ {steps index : Nat} {content : IfContent} {run : NodeId}
    (hopen : content.isClosed = false) (hrun : runs[index]? = some run) :
    d.readContent options runs nested problem (steps + 1) index content =
      if d.opensIf runs index then
        match nested index with
        | .error p => .error p
        | .ok field =>
          d.readContent options runs nested problem steps field.next (content.add (.nested field))
      else if d.hasMarker run then
        match content.addMarkerRun? options run ((d.runTexts run).map Prod.snd) with
        | none => .error (problem (.repeatedElse index))
        | some content => d.readContent options runs nested problem steps (index + 1) content
      else
        d.readContent options runs nested problem steps (index + 1)
          (content.addRun options run (d.runText run)) := by
  rw [readContent.eq_def]
  simp only [hopen, hrun]
  rfl

lemma readContent_at_end {steps index : Nat} {content : IfContent}
    (hopen : content.isClosed = false) (hrun : runs[index]? = none) :
    d.readContent options runs nested problem steps index content = .error (problem .unclosed) := by
  cases steps <;> rw [readContent.eq_def] <;> simp [hopen, hrun]

/-- A successful reading is a run of steps, whatever the bound on the steps was. -/
lemma ContentRun.of_readContent {steps index next : Nat} {content after : IfContent}
    (h : d.readContent options runs nested problem steps index content = .ok (after, next)) :
    ContentRun d options runs nested index content next after := by
  induction steps generalizing index content with
  | zero =>
    cases hopen : content.isClosed with
    | true =>
      rw [readContent_of_closed hopen] at h
      cases h
      exact .closed hopen
    | false => simp [readContent, hopen] at h
  | succ steps ih =>
    cases hopen : content.isClosed with
    | true =>
      rw [readContent_of_closed hopen] at h
      cases h
      exact .closed hopen
    | false =>
      cases hrun : runs[index]? with
      | none =>
        rw [readContent_at_end hopen hrun] at h
        cases h
      | some run =>
        rw [readContent_succ hopen hrun] at h
        split at h
        next hopens =>
          split at h
          · cases h
          next field hfield => exact .step (.nested hopen hrun hopens hfield) (ih h)
        next hopens =>
          rw [Bool.not_eq_true] at hopens
          split at h
          next hmarked =>
            split at h
            · cases h
            next read hread => exact .step (.markers hopen hrun hopens hmarked hread) (ih h)
          next hmarked =>
            rw [Bool.not_eq_true] at hmarked
            exact .step (.plain hopen hrun hopens hmarked) (ih h)

/-- A step needs a run at its index and moves the index forward, if fields inside do. -/
lemma ContentStep.progress {index index' : Nat} {content content' : IfContent}
    (hnested : ∀ index field, nested index = .ok field → index < field.next)
    (h : ContentStep d options runs nested index content index' content') :
    index < runs.length ∧ index < index' := by
  cases h with
  | nested _ atRun _ reads => exact ⟨(List.getElem?_eq_some_iff.1 atRun).1, hnested _ _ reads⟩
  | markers _ atRun _ _ _ => exact ⟨(List.getElem?_eq_some_iff.1 atRun).1, Nat.lt_succ_self _⟩
  | plain _ atRun _ _ => exact ⟨(List.getElem?_eq_some_iff.1 atRun).1, Nat.lt_succ_self _⟩

lemma ContentRun.le {index next : Nat} {content after : IfContent}
    (hnested : ∀ index field, nested index = .ok field → index < field.next)
    (h : ContentRun d options runs nested index content next after) : index ≤ next := by
  induction h with
  | closed _ => exact Nat.le_refl _
  | step first _ ih => exact Nat.le_trans (Nat.le_of_lt (first.progress hnested).2) ih

/-- A run of steps is what reading does, if the bound covers the runs that are left. -/
lemma ContentRun.readContent {steps index next : Nat} {content after : IfContent}
    (h : ContentRun d options runs nested index content next after)
    (hnested : ∀ index field, nested index = .ok field → index < field.next)
    (hsteps : runs.length ≤ steps + index) :
    d.readContent options runs nested problem steps index content = .ok (after, next) := by
  induction h generalizing steps with
  | closed isClosed => exact readContent_of_closed isClosed
  | step first _ ih =>
    have hprogress := first.progress hnested
    obtain ⟨steps', rfl⟩ : ∃ steps', steps = steps' + 1 := ⟨steps - 1, by omega⟩
    have hrest := @ih steps' (by omega)
    cases first with
    | nested isOpen atRun opens reads =>
      rw [readContent_succ isOpen atRun, if_pos opens]
      simp only [reads, hrest]
    | markers isOpen atRun opens marked reads =>
      rw [readContent_succ isOpen atRun, if_neg (by simp [opens]), if_pos marked]
      simp only [reads, hrest]
    | plain isOpen atRun opens unmarked =>
      rw [readContent_succ isOpen atRun, if_neg (by simp [opens]), if_neg (by simp [unmarked])]
      exact hrest

/-- The bound on the steps does not matter once it covers the runs that are left, and of the
reading of fields inside only what it does at those runs. -/
lemma readContent_congr {steps steps' index : Nat} {content : IfContent}
    (hnested : ∀ index field, nested index = .ok field → index < field.next)
    (hagree : ∀ later, index ≤ later → later < runs.length → nested later = nested' later)
    (hsteps : runs.length ≤ steps + index) (hsteps' : runs.length ≤ steps' + index) :
    d.readContent options runs nested problem steps index content =
      d.readContent options runs nested' problem steps' index content := by
  induction steps generalizing steps' index content with
  | zero =>
    have hrun : runs[index]? = none := List.getElem?_eq_none (by omega)
    cases hopen : content.isClosed with
    | true => rw [readContent_of_closed hopen, readContent_of_closed hopen]
    | false => rw [readContent_at_end hopen hrun, readContent_at_end hopen hrun]
  | succ steps ih =>
    cases hopen : content.isClosed with
    | true => rw [readContent_of_closed hopen, readContent_of_closed hopen]
    | false =>
      cases hrun : runs[index]? with
      | none => rw [readContent_at_end hopen hrun, readContent_at_end hopen hrun]
      | some run =>
        have hlt : index < runs.length := (List.getElem?_eq_some_iff.1 hrun).1
        obtain ⟨steps'', rfl⟩ : ∃ steps'', steps' = steps'' + 1 := ⟨steps' - 1, by omega⟩
        have hnext : ∀ later content, index < later →
            d.readContent options runs nested problem steps later content =
              d.readContent options runs nested' problem steps'' later content := by
          intro later content hlater
          exact ih (fun j hj hlt => hagree j (by omega) hlt) (by omega) (by omega)
        rw [readContent_succ hopen hrun, readContent_succ hopen hrun,
          ← hagree index (Nat.le_refl _) hlt]
        cases hfield : nested index with
        | error p =>
          cases content.addMarkerRun? options run ((d.runTexts run).map Prod.snd) <;>
            simp only [hnext _ _ (Nat.lt_succ_self index)]
        | ok field =>
          cases content.addMarkerRun? options run ((d.runTexts run).map Prod.snd) <;>
            simp only [hnext _ _ (Nat.lt_succ_self index), hnext _ _ (hnested _ _ hfield)]

end

/-! ## Fields -/

/-- The field that a header and the content after it make up. -/
def spanOf (runs : List NodeId) (index : Nat) (header : IfHeader) (content : IfContent)
    (next : Nat) : IfSpan where
  condition := header.condition
  first := index
  codeRuns := segment runs index (header.codeEnd + 1)
  ifTrue := content.ifTrue
  ifFalse := content.ifFalse
  markerRuns := content.markerRuns
  next := next

lemma readIfWithin_succ {depth index : Nat} :
    d.readIfWithin options runs (depth + 1) index =
      match d.readHeader runs index with
      | .error p => .error p
      | .ok header =>
        match d.readContent options runs (d.readIfWithin options runs depth)
            (fun fault => ⟨fault, index, header.instruction⟩) runs.length (header.codeEnd + 1) {}
            with
        | .error p => .error p
        | .ok (content, next) => .ok (spanOf runs index header content next) := by
  rw [readIfWithin]
  rfl

lemma readIfWithin_eq_ok {depth index : Nat} {field : IfSpan}
    (h : d.readIfWithin options runs (depth + 1) index = .ok field) :
    ∃ header content next, d.readHeader runs index = .ok header ∧
      ContentRun d options runs (d.readIfWithin options runs depth) (header.codeEnd + 1) {} next
        content ∧
      field = spanOf runs index header content next := by
  rw [readIfWithin_succ] at h
  split at h
  next => cases h
  next header hheader =>
    split at h
    next => cases h
    next content next hcontent =>
      cases h
      exact ⟨header, content, next, hheader, .of_readContent hcontent, rfl⟩

lemma readIfWithin_progress {depth index : Nat} {field : IfSpan}
    (h : d.readIfWithin options runs depth index = .ok field) : index < field.next := by
  induction depth generalizing index field with
  | zero => cases h
  | succ depth ih =>
    obtain ⟨header, content, next, hheader, hrun, rfl⟩ := readIfWithin_eq_ok h
    have hbounds := readHeader_bounds hheader
    have hle : header.codeEnd + 1 ≤ next := hrun.le fun _ _ => ih
    show index < next
    omega

/-- The bound on fields inside fields does not matter once it covers the runs that are left. -/
lemma readIfWithin_congr {depth depth' index : Nat} (hdepth : runs.length < depth + index)
    (hdepth' : runs.length < depth' + index) (hindex : index ≤ runs.length) :
    d.readIfWithin options runs depth index = d.readIfWithin options runs depth' index := by
  induction depth generalizing depth' index with
  | zero => omega
  | succ depth ih =>
    obtain ⟨depth'', rfl⟩ : ∃ depth'', depth' = depth'' + 1 := ⟨depth' - 1, by omega⟩
    rw [readIfWithin_succ, readIfWithin_succ]
    cases hheader : d.readHeader runs index with
    | error p => rfl
    | ok header =>
      have hbounds := readHeader_bounds hheader
      have hagree : ∀ later, header.codeEnd + 1 ≤ later → later < runs.length →
          d.readIfWithin options runs depth later = d.readIfWithin options runs depth'' later :=
        fun later hlater hlt => ih (by omega) (by omega) (by omega)
      have hcontent : d.readContent options runs (d.readIfWithin options runs depth)
          (fun fault => ⟨fault, index, header.instruction⟩) runs.length (header.codeEnd + 1) {} =
            d.readContent options runs (d.readIfWithin options runs depth'')
              (fun fault => ⟨fault, index, header.instruction⟩) runs.length
                (header.codeEnd + 1) {} :=
        readContent_congr (fun _ _ => readIfWithin_progress) hagree
          (Nat.le_add_right runs.length _) (Nat.le_add_right runs.length _)
      simp only [hcontent]

lemma readIf_progress {index : Nat} {field : IfSpan} (h : d.readIf options runs index = .ok field) :
    index < field.next :=
  readIfWithin_progress h

lemma readIfWithin_eq_readIf {depth index : Nat} (hdepth : runs.length < depth + index)
    (hindex : index ≤ runs.length) :
    d.readIfWithin options runs depth index = d.readIf options runs index :=
  readIfWithin_congr hdepth (by omega) hindex

/-- Reading a field is reading its header and then its content, in which fields inside are read in
the same way. -/
theorem readIf_eq {index : Nat} :
    d.readIf options runs index =
      match d.readHeader runs index with
      | .error p => .error p
      | .ok header =>
        match d.readContent options runs (d.readIf options runs)
            (fun fault => ⟨fault, index, header.instruction⟩) runs.length (header.codeEnd + 1) {}
            with
        | .error p => .error p
        | .ok (content, next) => .ok (spanOf runs index header content next) := by
  rw [readIf, readIfWithin_succ]
  cases hheader : d.readHeader runs index with
  | error p => rfl
  | ok header =>
    have hagree : ∀ later, header.codeEnd + 1 ≤ later → later < runs.length →
        d.readIfWithin options runs runs.length later = d.readIf options runs later :=
      fun later hlater hlt => readIfWithin_eq_readIf (by omega) (by omega)
    have hcontent : d.readContent options runs (d.readIfWithin options runs runs.length)
        (fun fault => ⟨fault, index, header.instruction⟩) runs.length (header.codeEnd + 1) {} =
          d.readContent options runs (d.readIf options runs)
            (fun fault => ⟨fault, index, header.instruction⟩) runs.length (header.codeEnd + 1) {} :=
      readContent_congr (fun _ _ => readIfWithin_progress) hagree
        (Nat.le_add_right runs.length _) (Nat.le_add_right runs.length _)
    simp only [hcontent]

/-- What it means that a field is read, without any bound. -/
theorem readIf_eq_ok_iff {index : Nat} {field : IfSpan} :
    d.readIf options runs index = .ok field ↔
      ∃ header content next, d.readHeader runs index = .ok header ∧
        ContentRun d options runs (d.readIf options runs) (header.codeEnd + 1) {} next content ∧
        field = spanOf runs index header content next := by
  rw [readIf_eq]
  constructor
  · intro h
    split at h
    next => cases h
    next header hheader =>
      split at h
      next => cases h
      next content next hcontent =>
        cases h
        exact ⟨header, content, next, hheader, .of_readContent hcontent, rfl⟩
  · rintro ⟨header, content, next, hheader, hrun, rfl⟩
    have hcontent : d.readContent options runs (d.readIf options runs)
        (fun fault => ⟨fault, index, header.instruction⟩) runs.length (header.codeEnd + 1) {} =
          .ok (content, next) :=
      hrun.readContent (fun _ _ => readIf_progress) (Nat.le_add_right _ _)
    simp only [hheader, hcontent]

end Document

end WordFields
