import WordFields.Proofs.Field.Scanning

/-!
# The two policies for a second `%else%`

Under the strict policy a field with a second `%else%` cannot be read; under the other one each
`%else%` changes to the other branch.  Up to the first `%else%` of a field the true branch is read
(`IfContent.Straight`), so there both policies do the same, and reading goes on in the same way until
the strict policy gives up.  `Tolerates` says this of two readings: they are the same unless the
first one met a second `%else%`.  It goes from markers to runs, to fields, to fields around fields.

In the scan over a document a field that cannot be read is reported once only, so a problem that is
not reported might be a second `%else%` all the same.  It is not, since a problem is known by the run
that it names: what is reported for that run is the very same problem.
-/

namespace WordFields

namespace IfFault

/-- Whether a fault is a second `%else%`. -/
def IsRepetition (fault : IfFault) : Prop :=
  ∃ run, fault = .repeatedElse run

lemma isRepetition_iff (p : IfProblem) :
    p.fault.IsRepetition ↔ p.toDiagnostic.code = some "F-2-4" := by
  obtain ⟨fault, run, instruction⟩ := p
  cases fault <;> simp [IsRepetition, IfProblem.toDiagnostic, IfProblem.template]

end IfFault

/-- Two readings, the first of which may have failed with a second `%else%`; else the second one is
the same. -/
def Tolerates {α : Type} (strict lenient : Except IfProblem α) : Prop :=
  (∃ p, strict = .error p ∧ p.fault.IsRepetition) ∨ lenient = strict

lemma Tolerates.eq_of_ok {α : Type} {strict lenient : Except IfProblem α} {a : α}
    (h : Tolerates strict lenient) (hstrict : strict = .ok a) : lenient = .ok a := by
  subst hstrict
  rcases h with ⟨p, hp, -⟩ | heq
  · cases hp
  · exact heq

lemma Tolerates.eq_of_error {α : Type} {strict lenient : Except IfProblem α} {p : IfProblem}
    (h : Tolerates strict lenient) (hstrict : strict = .error p) (hp : ¬ p.fault.IsRepetition) :
    lenient = .error p := by
  subst hstrict
  rcases h with ⟨p', hp', hrepetition⟩ | heq
  · cases hp'
    exact absurd hrepetition hp
  · exact heq

/-! ## Content -/

namespace IfContent

variable {content after : IfContent} {options : Options}

/-- Whether the true branch is read as long as no `%else%` has been. -/
def Straight (content : IfContent) : Prop :=
  content.seenElse = false → content.inTrue = true

lemma straight_empty : Straight {} :=
  fun _ => rfl

lemma Straight.add (h : content.Straight) (entry : BranchEntry) :
    (content.add entry).Straight := by
  unfold IfContent.add
  split <;> exact h

lemma Straight.addRun (h : content.Straight) (options : Options) (run : NodeId) (text : String) :
    (content.addRun options run text).Straight := by
  unfold IfContent.addRun
  split <;> exact h.add _

lemma Straight.addFragment (h : content.Straight) (options : Options) (text : List Char) :
    (content.addFragment options text).Straight := by
  unfold IfContent.addFragment
  split
  · exact h
  · exact h.add _

/-- A marker that the strict policy allows means the same under both. -/
lemma Straight.addMarker?_toggle (h : content.Straight) {marker : Marker}
    (hread : content.addMarker? { options with elsePolicy := .reject } marker = some after) :
    content.addMarker? { options with elsePolicy := .toggle } marker = some after ∧
      after.Straight := by
  unfold addMarker? at hread ⊢
  cases hclosed : content.isClosed with
  | true =>
    rw [hclosed, if_pos rfl] at hread
    cases hread
    exact ⟨rfl, h⟩
  | false =>
    cases marker with
    | endMarker =>
      simp only [hclosed] at hread ⊢
      cases hread
      exact ⟨rfl, h⟩
    | elseMarker =>
      simp only [hclosed] at hread ⊢
      cases hseen : content.seenElse with
      | true =>
        rw [hseen] at hread
        cases hread
      | false =>
        rw [hseen] at hread
        cases hread
        rw [h hseen]
        exact ⟨rfl, fun hnone => nomatch hnone⟩

lemma Straight.addPieces?_toggle (h : content.Straight) {pieces : List Piece} {sides : List Side}
    (hread : addPieces? { options with elsePolicy := .reject } content pieces =
      some (sides, after)) :
    addPieces? { options with elsePolicy := .toggle } content pieces = some (sides, after) ∧
      after.Straight := by
  induction pieces generalizing content sides with
  | nil =>
    cases hread
    exact ⟨rfl, h⟩
  | cons piece pieces ih =>
    cases piece with
    | text text =>
      obtain ⟨⟨sides', after'⟩, hpieces, heq⟩ := Option.map_eq_some_iff.1 hread
      cases heq
      obtain ⟨hlenient, hafter⟩ := ih (h.addFragment _ text) hpieces
      refine ⟨?_, hafter⟩
      rw [addPieces?]
      exact Option.map_eq_some_iff.2 ⟨_, hlenient, rfl⟩
    | marker marker =>
      rw [addPieces?] at hread ⊢
      split at hread
      next middle hmarker =>
        obtain ⟨hlenient, hmiddle⟩ := h.addMarker?_toggle hmarker
        simp only [hlenient]
        exact ih hmiddle hread
      next => cases hread

lemma Straight.addMarkerRun?_toggle (h : content.Straight) {run : NodeId} {texts : List String}
    (hread : content.addMarkerRun? { options with elsePolicy := .reject } run texts =
      some after) :
    content.addMarkerRun? { options with elsePolicy := .toggle } run texts = some after ∧
      after.Straight := by
  obtain ⟨⟨sides, read⟩, hpieces, rfl⟩ := Option.map_eq_some_iff.1 hread
  obtain ⟨hlenient, hstraight⟩ := h.addPieces?_toggle hpieces
  exact ⟨Option.map_eq_some_iff.2 ⟨_, hlenient, rfl⟩, hstraight⟩

end IfContent

namespace Document

variable {d : Document} {options : Options} {runs : List NodeId}

/-! ## Fields -/

lemma tolerates_readContent {nested nested' : Nat → Except IfProblem IfSpan}
    {problem : IfFault → IfProblem} (hproblem : ∀ fault, (problem fault).fault = fault)
    (hnested : ∀ index, Tolerates (nested index) (nested' index)) {steps index : Nat}
    {content : IfContent} (hcontent : content.Straight) :
    Tolerates
      (d.readContent { options with elsePolicy := .reject } runs nested problem steps index content)
      (d.readContent { options with elsePolicy := .toggle } runs nested' problem steps index
        content) := by
  induction steps generalizing index content with
  | zero =>
    right
    rw [readContent.eq_def, readContent.eq_def]
  | succ steps ih =>
    cases hopen : content.isClosed with
    | true =>
      right
      rw [readContent_of_closed hopen, readContent_of_closed hopen]
    | false =>
      cases hrun : runs[index]? with
      | none =>
        right
        rw [readContent_at_end hopen hrun, readContent_at_end hopen hrun]
      | some run =>
        rw [readContent_succ hopen hrun, readContent_succ hopen hrun]
        split
        next =>
          rcases hnested index with ⟨p, hp, hrepetition⟩ | heq
          · left
            exact ⟨p, by rw [hp], hrepetition⟩
          · rw [heq]
            cases nested index with
            | error p => exact .inr rfl
            | ok field => exact ih (hcontent.add _)
        next =>
          split
          next =>
            split
            next => exact .inl ⟨_, rfl, index, hproblem _⟩
            next read hread =>
              obtain ⟨hlenient, hstraight⟩ := hcontent.addMarkerRun?_toggle hread
              rw [hlenient]
              exact ih hstraight
          next => exact ih (hcontent.addRun _ _ _)

lemma tolerates_readIfWithin (depth index : Nat) :
    Tolerates (d.readIfWithin { options with elsePolicy := .reject } runs depth index)
      (d.readIfWithin { options with elsePolicy := .toggle } runs depth index) := by
  induction depth generalizing index with
  | zero => exact .inr rfl
  | succ depth ih =>
    rw [readIfWithin_succ, readIfWithin_succ]
    cases d.readHeader runs index with
    | error p => exact .inr rfl
    | ok header =>
      have hcontent : Tolerates
          (d.readContent { options with elsePolicy := .reject } runs
            (d.readIfWithin { options with elsePolicy := .reject } runs depth)
            (fun fault => ⟨fault, index, header.instruction⟩) runs.length (header.codeEnd + 1) {})
          (d.readContent { options with elsePolicy := .toggle } runs
            (d.readIfWithin { options with elsePolicy := .toggle } runs depth)
            (fun fault => ⟨fault, index, header.instruction⟩) runs.length (header.codeEnd + 1) {}) :=
        tolerates_readContent (fun _ => rfl) ih IfContent.straight_empty
      rcases hcontent with ⟨p, hp, hrepetition⟩ | heq
      · exact .inl ⟨p, by simp only [hp], hrepetition⟩
      · exact .inr (by simp only [heq])

lemma tolerates_readIf (d : Document) (options : Options) (runs : List NodeId) (index : Nat) :
    Tolerates (d.readIf { options with elsePolicy := .reject } runs index)
      (d.readIf { options with elsePolicy := .toggle } runs index) :=
  tolerates_readIfWithin _ _

/-! ## The scan -/

/-- A scan that reports no second `%else%` meets none.  `reported` has the runs of problems of which
none is a second `%else%`. -/
lemma readIfsFrom_toggle {steps index : Nat} {reported : List Nat}
    (hreported : ∀ p : IfProblem, p.run ∈ reported →
      d.readIf { options with elsePolicy := .reject } runs p.run = .error p →
        ¬ p.fault.IsRepetition)
    (hnone : ∀ diagnostic ∈ (d.readIfsFrom { options with elsePolicy := .reject } runs steps index
      reported).2, diagnostic.code ≠ some "F-2-4") :
    d.readIfsFrom { options with elsePolicy := .toggle } runs steps index reported =
      d.readIfsFrom { options with elsePolicy := .reject } runs steps index reported := by
  induction steps generalizing index reported with
  | zero => rfl
  | succ steps ih =>
    have htolerates := d.tolerates_readIf options runs index
    rw [readIfsFrom, readIfsFrom]
    rw [readIfsFrom] at hnone
    split
    next => rfl
    next hmore =>
      rw [if_neg hmore] at hnone
      split
      next hopens =>
        rw [if_pos hopens] at hnone
        cases hread : d.readIf { options with elsePolicy := .reject } runs index with
        | ok field =>
          rw [hread] at hnone
          simp only [htolerates.eq_of_ok hread]
          rw [ih hreported hnone]
        | error p =>
          have horigin := readIf_error_origin hread
          rw [hread] at hnone
          by_cases hknown : p.run ∈ reported
          · have hcontains : reported.contains p.run = true := List.contains_iff_mem.2 hknown
            have hp : ¬ p.fault.IsRepetition := hreported p hknown horigin
            simp only [htolerates.eq_of_error hread hp, hcontains, if_true] at hnone ⊢
            exact ih hreported hnone
          · have hcontains : reported.contains p.run = false := by simpa using hknown
            simp only [hcontains, Bool.false_eq_true, if_false, List.forall_mem_cons] at hnone
            obtain ⟨hcode, hrest⟩ := hnone
            have hp : ¬ p.fault.IsRepetition := fun h => hcode ((IfFault.isRepetition_iff p).1 h)
            simp only [htolerates.eq_of_error hread hp, hcontains, Bool.false_eq_true, if_false]
            rw [ih (fun p' hp' hread' => ?_) hrest]
            rcases List.mem_cons.1 hp' with hrun | hp'
            · rw [hrun, horigin] at hread'
              cases hread'
              exact hp
            · exact hreported p' hp' hread'
      next hopens =>
        rw [if_neg hopens] at hnone
        exact ih hreported hnone

/-- The policy that lets every `%else%` change the branch reads whatever the strict policy does, and
reads it in the same way; and where the strict policy fails for another reason than a second
`%else%`, it fails with the same problem.  So a document for which the strict policy reports no
second `%else%` has the same fields and the same diagnostics under both. -/
theorem readIf_toggle_eq_reject (d : Document) (options : Options) :
    let strict := { options with elsePolicy := .reject }
    let lenient := { options with elsePolicy := .toggle }
    (∀ runs index,
      (∀ p marker, d.readIf strict runs index = .error p → p.fault ≠ .repeatedElse marker) →
        d.readIf lenient runs index = d.readIf strict runs index) ∧
      ((∀ diagnostic ∈ (d.ifSpans strict).2, diagnostic.code ≠ some "F-2-4") →
        d.ifSpans lenient = d.ifSpans strict) := by
  intro strict lenient
  constructor
  · intro runs index hnone
    refine (d.tolerates_readIf options runs index).resolve_left ?_
    rintro ⟨p, hp, marker, hmarker⟩
    exact hnone p marker hp hmarker
  · exact readIfsFrom_toggle fun p hp => nomatch hp

/-- A field inside another, each with an `%else%`, and behind them a field that is not closed. -/
theorem readIf_toggle_eq_reject_nested :
    let template : Template :=
      .field ⟨"a", "=", "1"⟩
        (.text "v" (.field ⟨"b", "<>", "2"⟩ (.text "w" .nil) (.text "x" .nil) .nil))
        (.text "y" .nil) .nil
    let d := ofForest [Tree.page [template.cells ++ [.field ⟨"c", "=", "3"⟩]]]
    let strict : Options := { elsePolicy := .reject }
    let lenient : Options := { elsePolicy := .toggle }
    (d.ifSpans strict).1.length = 1 ∧
      (d.ifSpans strict).2.map Diagnostic.code = [some "F-2-3"] ∧
      d.readIf lenient d.runs 0 = d.readIf strict d.runs 0 ∧
      d.ifSpans lenient = d.ifSpans strict := by
  intro template d strict lenient
  have hspans : ((d.ifSpans strict).1.length, (d.ifSpans strict).2.map Diagnostic.code) =
      (1, [some "F-2-3"]) := by decide +kernel
  obtain ⟨hlength, hcodes⟩ := Prod.mk.inj hspans
  have hreads : (d.readIf strict d.runs 0).isOk = true := by decide +kernel
  obtain ⟨hfield, hscan⟩ := d.readIf_toggle_eq_reject {}
  refine ⟨hlength, hcodes, hfield d.runs 0 fun p marker hp => ?_,
    hscan fun diagnostic hdiagnostic hcode => ?_⟩
  · rw [show d.readIf strict d.runs 0 = .error p from hp] at hreads
    cases hreads
  · have hmem := List.mem_map_of_mem (f := Diagnostic.code) hdiagnostic
    rw [show (d.ifSpans { elsePolicy := .reject }).2.map Diagnostic.code = _ from hcodes, hcode]
      at hmem
    simp at hmem

end Document

end WordFields
