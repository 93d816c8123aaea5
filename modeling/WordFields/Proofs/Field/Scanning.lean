import Mathlib.Data.List.Chain
import WordFields.Proofs.Field.Partition

/-!
# The scan for fields

`Document.readIfsFrom` goes over the runs, jumps behind each field that it can read and passes a
field that it cannot read by one run only, so it may meet one broken field several times.  `Scan`
has a constructor for each thing that a step can do, without the bound on the steps; what holds of
all scans is shown by induction on it.

A problem belongs to the innermost broken field: reading at the run that a problem names gives this
very problem (`readIf_error_origin`).  So a list of problems at different runs is a list of
different problems, and `ifSpans_scan` can say that nothing is reported twice and nothing is left
out.
-/

namespace WordFields

/-- Whether an index is in the range of none of the fields. -/
def Uncovered (fields : List IfSpan) (index : Nat) : Prop :=
  ∀ field ∈ fields, index < field.first ∨ field.next ≤ index

lemma uncovered_cons {field : IfSpan} {fields : List IfSpan} {index : Nat} :
    Uncovered (field :: fields) index ↔
      (index < field.first ∨ field.next ≤ index) ∧ Uncovered fields index :=
  List.forall_mem_cons

namespace Document

variable {d : Document} {options : Options} {runs : List NodeId}

/-! ## Where a problem comes from -/

/-- Reading content fails with a problem of the field itself or with one of a field that opens
inside. -/
lemma readContent_error {nested : Nat → Except IfProblem IfSpan} {problem : IfFault → IfProblem}
    {steps index : Nat} {content : IfContent} {p : IfProblem}
    (hnested : ∀ index field, nested index = .ok field → index < field.next)
    (h : d.readContent options runs nested problem steps index content = .error p) :
    (∃ fault, p = problem fault) ∨
      ∃ later, index ≤ later ∧ later < runs.length ∧ d.opensIf runs later = true ∧
        nested later = .error p := by
  induction steps generalizing index content with
  | zero =>
    cases hopen : content.isClosed with
    | true =>
      rw [readContent_of_closed hopen] at h
      cases h
    | false =>
      simp only [readContent, hopen] at h
      cases h
      exact .inl ⟨.unclosed, rfl⟩
  | succ steps ih =>
    cases hopen : content.isClosed with
    | true =>
      rw [readContent_of_closed hopen] at h
      cases h
    | false =>
      cases hrun : runs[index]? with
      | none =>
        rw [readContent_at_end hopen hrun] at h
        cases h
        exact .inl ⟨.unclosed, rfl⟩
      | some run =>
        have hlt : index < runs.length := (List.getElem?_eq_some_iff.1 hrun).1
        have hlater : ∀ {next : Nat} {content : IfContent}, index < next →
            d.readContent options runs nested problem steps next content = .error p →
              (∃ fault, p = problem fault) ∨
                ∃ later, index ≤ later ∧ later < runs.length ∧ d.opensIf runs later = true ∧
                  nested later = .error p := by
          intro next content hnext hrest
          refine (ih hrest).imp_right ?_
          rintro ⟨later, hle, hlater⟩
          exact ⟨later, by omega, hlater⟩
        rw [readContent_succ hopen hrun] at h
        split at h
        next hopens =>
          split at h
          next p' hfails =>
            cases h
            exact .inr ⟨index, Nat.le_refl _, hlt, hopens, hfails⟩
          next field hfield => exact hlater (hnested _ _ hfield) h
        · split at h
          · split at h
            · cases h
              exact .inl ⟨.repeatedElse index, rfl⟩
            · exact hlater (Nat.lt_succ_self index) h
          · exact hlater (Nat.lt_succ_self index) h

lemma readHeader_error {index : Nat} {p : IfProblem} (h : d.readHeader runs index = .error p) :
    p.run = index := by
  unfold readHeader at h
  simp only at h
  split at h
  · cases h
    rfl
  · split at h
    · cases h
      rfl
    · split at h
      · cases h
      · cases h
        rfl
  · cases h
    rfl

/-- A field that cannot be read has a problem of its own, or the problem of a field that opens
later. -/
lemma readIf_error {index : Nat} {p : IfProblem} (h : d.readIf options runs index = .error p) :
    p.run = index ∨
      ∃ later, index < later ∧ later < runs.length ∧ d.opensIf runs later = true ∧
        d.readIf options runs later = .error p := by
  rw [readIf_eq] at h
  split at h
  next p' hheader =>
    cases h
    exact .inl (readHeader_error hheader)
  next header hheader =>
    have hbounds := readHeader_bounds hheader
    split at h
    next p' hcontent =>
      cases h
      rcases readContent_error (fun _ _ => readIf_progress) hcontent with ⟨fault, rfl⟩ | hlater
      · exact .inl rfl
      · obtain ⟨later, hle, hlater⟩ := hlater
        exact .inr ⟨later, by omega, hlater⟩
    next => cases h

/-- The run that a problem names is that of the field itself, or a field opens at it later on. -/
lemma readIf_error_run {index : Nat} {p : IfProblem} (h : d.readIf options runs index = .error p) :
    p.run = index ∨ (index < p.run ∧ d.opensIf runs p.run = true) := by
  rcases readIf_error h with hrun | ⟨later, hlt, hlater, hopens, hfails⟩
  · exact .inl hrun
  · right
    rcases readIf_error_run hfails with hrun | ⟨hrun, hrunOpens⟩
    · rw [hrun]
      exact ⟨hlt, hopens⟩
    · exact ⟨Nat.lt_trans hlt hrun, hrunOpens⟩
termination_by runs.length - index

/-- Reading at the run that a problem names gives this problem. -/
theorem readIf_error_origin {index : Nat} {p : IfProblem}
    (h : d.readIf options runs index = .error p) : d.readIf options runs p.run = .error p := by
  rcases readIf_error h with hrun | ⟨later, hlt, hlater, -, hfails⟩
  · rw [hrun]
    exact h
  · exact readIf_error_origin hfails
termination_by runs.length - index

/-! ## Scans -/

/-- A scan from an index on: the fields it finds and the problems it reports.  `reported` has the
runs of problems that are reported already. -/
inductive Scan (d : Document) (options : Options) (runs : List NodeId) :
    Nat → List Nat → List IfSpan → List IfProblem → Prop where
  | finished {index : Nat} {reported : List Nat} (atEnd : runs.length ≤ index) :
      Scan d options runs index reported [] []
  | field {index : Nat} {reported : List Nat} {field : IfSpan} {fields : List IfSpan}
      {problems : List IfProblem} (opens : d.opensIf runs index = true)
      (reads : d.readIf options runs index = .ok field)
      (rest : Scan d options runs field.next reported fields problems) :
      Scan d options runs index reported (field :: fields) problems
  | known {index : Nat} {reported : List Nat} {p : IfProblem} {fields : List IfSpan}
      {problems : List IfProblem} (opens : d.opensIf runs index = true)
      (fails : d.readIf options runs index = .error p) (isKnown : p.run ∈ reported)
      (rest : Scan d options runs (index + 1) reported fields problems) :
      Scan d options runs index reported fields problems
  | fresh {index : Nat} {reported : List Nat} {p : IfProblem} {fields : List IfSpan}
      {problems : List IfProblem} (opens : d.opensIf runs index = true)
      (fails : d.readIf options runs index = .error p) (isNew : p.run ∉ reported)
      (rest : Scan d options runs (index + 1) (p.run :: reported) fields problems) :
      Scan d options runs index reported fields (p :: problems)
  | other {index : Nat} {reported : List Nat} {fields : List IfSpan} {problems : List IfProblem}
      (opens : d.opensIf runs index = false)
      (rest : Scan d options runs (index + 1) reported fields problems) :
      Scan d options runs index reported fields problems

/-- Reading fields from an index on is a scan, if the bound covers the runs that are left. -/
lemma exists_scan {steps index : Nat} {reported : List Nat} (hsteps : runs.length ≤ steps + index) :
    ∃ problems, (d.readIfsFrom options runs steps index reported).2 =
        problems.map IfProblem.toDiagnostic ∧
      Scan d options runs index reported (d.readIfsFrom options runs steps index reported).1
        problems := by
  induction steps generalizing index reported with
  | zero => exact ⟨[], rfl, .finished (by omega)⟩
  | succ steps ih =>
    rw [readIfsFrom]
    split
    next hend => exact ⟨[], rfl, .finished hend⟩
    next =>
      have hnext : runs.length ≤ steps + (index + 1) := by omega
      split
      next hopens =>
        split
        next field hfield =>
          have hprogress := readIf_progress hfield
          obtain ⟨problems, hdiagnostics, hscan⟩ :=
            @ih field.next reported (by omega)
          exact ⟨problems, hdiagnostics, .field hopens hfield hscan⟩
        next p hfails =>
          split
          next hknown =>
            obtain ⟨problems, hdiagnostics, hscan⟩ := @ih (index + 1) reported hnext
            exact ⟨problems, hdiagnostics,
              .known hopens hfails (List.contains_iff_mem.1 hknown) hscan⟩
          next hnew =>
            obtain ⟨problems, hdiagnostics, hscan⟩ := @ih (index + 1) (p.run :: reported) hnext
            refine ⟨p :: problems, congrArg (p.toDiagnostic :: ·) hdiagnostics, ?_⟩
            exact .fresh hopens hfails (fun hmem => hnew (List.contains_iff_mem.2 hmem)) hscan
      next hopens =>
        obtain ⟨problems, hdiagnostics, hscan⟩ := @ih (index + 1) reported hnext
        exact ⟨problems, hdiagnostics, .other (Bool.eq_false_of_not_eq_true hopens) hscan⟩

namespace Scan

variable {index : Nat} {reported : List Nat} {fields : List IfSpan} {problems : List IfProblem}

/-- Every field that is found was read at an index on the way. -/
lemma reads_of_mem (h : Scan d options runs index reported fields problems) {found : IfSpan}
    (hfound : found ∈ fields) :
    index ≤ found.first ∧ d.opensIf runs found.first = true ∧
      d.readIf options runs found.first = .ok found := by
  induction h with
  | finished => cases hfound
  | @field index reported field fields problems opens reads rest ih =>
    have hfirst := readIf_first reads
    rcases List.mem_cons.1 hfound with rfl | hmem
    · rw [hfirst]
      exact ⟨Nat.le_refl _, opens, reads⟩
    · have hprogress := readIf_progress reads
      obtain ⟨hle, hrest⟩ := ih hmem
      exact ⟨by omega, hrest⟩
  | known _ _ _ _ ih => exact ⟨Nat.le_of_succ_le (ih hfound).1, (ih hfound).2⟩
  | fresh _ _ _ _ ih => exact ⟨Nat.le_of_succ_le (ih hfound).1, (ih hfound).2⟩
  | other _ _ ih => exact ⟨Nat.le_of_succ_le (ih hfound).1, (ih hfound).2⟩

/-- Each field ends before the following one starts. -/
lemma isChain (h : Scan d options runs index reported fields problems) :
    fields.IsChain fun field following => field.next ≤ following.first := by
  induction h with
  | finished => exact .nil
  | field opens reads rest ih =>
    refine List.isChain_cons.2 ⟨fun following hfollowing => ?_, ih⟩
    exact (rest.reads_of_mem (List.mem_of_mem_head? hfollowing)).1
  | known _ _ _ _ ih => exact ih
  | fresh _ _ _ _ ih => exact ih
  | other _ _ ih => exact ih

/-- Whatever opens outside the fields that are found cannot be read, and its problem is reported
unless one of the same run has been. -/
lemma exists_error (h : Scan d options runs index reported fields problems) {later : Nat}
    (hle : index ≤ later) (hopens : d.opensIf runs later = true)
    (huncovered : Uncovered fields later) :
    ∃ p, d.readIf options runs later = .error p ∧ (p.run ∈ reported ∨ p ∈ problems) := by
  induction h with
  | finished atEnd =>
    have hnone := List.getElem?_eq_none (Nat.le_trans atEnd hle)
    simp [opensIf, hnone] at hopens
  | field _ reads _ ih =>
    obtain ⟨houtside, huncovered⟩ := uncovered_cons.1 huncovered
    rw [readIf_first reads] at houtside
    exact ih (by omega) huncovered
  | @known index _ p _ _ _ fails isKnown _ ih =>
    rcases Nat.eq_or_lt_of_le hle with rfl | hlt
    · exact ⟨p, fails, .inl isKnown⟩
    · exact ih hlt huncovered
  | @fresh index _ p _ _ _ fails _ _ ih =>
    rcases Nat.eq_or_lt_of_le hle with rfl | hlt
    · exact ⟨p, fails, .inr List.mem_cons_self⟩
    · obtain ⟨p', hfails, hreported | hmem⟩ := ih hlt huncovered
      · rcases List.mem_cons.1 hreported with hrun | hreported
        · have horigin := readIf_error_origin hfails
          rw [hrun, readIf_error_origin fails] at horigin
          cases horigin
          exact ⟨p, hfails, .inr List.mem_cons_self⟩
        · exact ⟨p', hfails, .inl hreported⟩
      · exact ⟨p', hfails, .inr (List.mem_cons_of_mem _ hmem)⟩
  | other closed _ ih =>
    rcases Nat.eq_or_lt_of_le hle with rfl | hlt
    · rw [hopens] at closed
      cases closed
    · exact ih hlt huncovered

/-- Fields found from an index on do not cover what is before it. -/
lemma uncovered_before (h : Scan d options runs index reported fields problems) {earlier : Nat}
    (hlt : earlier < index) : Uncovered fields earlier :=
  fun _ hfound => .inl (Nat.lt_of_lt_of_le hlt (h.reads_of_mem hfound).1)

/-- A problem that is reported is that of an index outside the fields that are found. -/
lemma exists_index_of_mem (h : Scan d options runs index reported fields problems) {p : IfProblem}
    (hp : p ∈ problems) :
    ∃ later, index ≤ later ∧ d.opensIf runs later = true ∧ Uncovered fields later ∧
      d.readIf options runs later = .error p := by
  induction h with
  | finished => cases hp
  | field opens reads rest ih =>
    obtain ⟨later, hle, hopens, huncovered, hfails⟩ := ih hp
    have hprogress := readIf_progress reads
    exact ⟨later, by omega, hopens, uncovered_cons.2 ⟨.inr hle, huncovered⟩, hfails⟩
  | known _ _ _ _ ih =>
    obtain ⟨later, hle, hrest⟩ := ih hp
    exact ⟨later, Nat.le_of_succ_le hle, hrest⟩
  | @fresh index reported p' fields problems opens fails isNew rest ih =>
    rcases List.mem_cons.1 hp with rfl | hp
    · exact ⟨index, Nat.le_refl _, opens, rest.uncovered_before (Nat.lt_succ_self _), fails⟩
    · obtain ⟨later, hle, hrest⟩ := ih hp
      exact ⟨later, Nat.le_of_succ_le hle, hrest⟩
  | other _ _ ih =>
    obtain ⟨later, hle, hrest⟩ := ih hp
    exact ⟨later, Nat.le_of_succ_le hle, hrest⟩

/-- No two problems that are reported are at the same run. -/
lemma nodup_runs (h : Scan d options runs index reported fields problems) :
    (problems.map IfProblem.run).Nodup ∧ ∀ p ∈ problems, p.run ∉ reported := by
  induction h with
  | finished => simp
  | field _ _ _ ih => exact ih
  | known _ _ _ _ ih => exact ih
  | fresh _ _ isNew _ ih =>
    obtain ⟨hnodup, hfresh⟩ := ih
    refine ⟨?_, ?_⟩
    · rw [List.map_cons, List.nodup_cons]
      refine ⟨fun hmem => ?_, hnodup⟩
      obtain ⟨p, hp, hrun⟩ := List.mem_map.1 hmem
      exact hfresh p hp (hrun ▸ List.mem_cons_self)
    · intro p hp
      rcases List.mem_cons.1 hp with rfl | hp
      · exact isNew
      · exact fun hmem => hfresh p hp (List.mem_cons_of_mem _ hmem)
  | other _ _ ih => exact ih

end Scan

/-- Every field of a document is what is read at its first run. -/
lemma readIf_of_mem_ifSpans {field : IfSpan} (h : field ∈ (d.ifSpans options).1) :
    d.readIf options d.runs field.first = .ok field := by
  obtain ⟨problems, -, hscan⟩ := @exists_scan d options d.runs (d.runs.length + 1) 0 [] (by omega)
  exact (hscan.reads_of_mem h).2.2

/-- The scan over a document is complete and its fields are apart.  They stand in order, none
reaching into the next one or behind the last run, and each is what is read at its first run.
Wherever else a field opens it cannot be read, and the problems of these places are what is
reported: all of them, and each run once. -/
theorem ifSpans_scan (d : Document) (options : Options) :
    let runs := d.runs
    let fields := (d.ifSpans options).1
    (fields.IsChain fun field following => field.next ≤ following.first) ∧
      (∀ field ∈ fields, field.first < field.next ∧ field.next ≤ runs.length ∧
        d.opensIf runs field.first = true ∧
        d.readIf options runs field.first = .ok field) ∧
      (∀ index, d.opensIf runs index = true → Uncovered fields index →
        ∃ p, d.readIf options runs index = .error p) ∧
      ∃ problems : List IfProblem,
        (d.ifSpans options).2 = problems.map IfProblem.toDiagnostic ∧
        (problems.map IfProblem.run).Nodup ∧
        ∀ p, p ∈ problems ↔ ∃ index, d.opensIf runs index = true ∧ Uncovered fields index ∧
          d.readIf options runs index = .error p := by
  intro runs fields
  obtain ⟨problems, hdiagnostics, hscan⟩ :=
    @exists_scan d options runs (runs.length + 1) 0 [] (by omega)
  refine ⟨hscan.isChain, ?_, ?_, problems, hdiagnostics, hscan.nodup_runs.1, ?_⟩
  · intro field hfield
    obtain ⟨-, hopens, hreads⟩ := hscan.reads_of_mem hfield
    exact ⟨readIf_progress hreads, readIf_next_le_length hreads, hopens, hreads⟩
  · intro index hopens huncovered
    obtain ⟨p, hfails, -⟩ := hscan.exists_error (Nat.zero_le _) hopens huncovered
    exact ⟨p, hfails⟩
  · intro p
    constructor
    · intro hp
      obtain ⟨later, -, hlater⟩ := hscan.exists_index_of_mem hp
      exact ⟨later, hlater⟩
    · rintro ⟨index, hopens, huncovered, hfails⟩
      obtain ⟨p', hfails', hmem⟩ := hscan.exists_error (Nat.zero_le _) hopens huncovered
      rw [hfails] at hfails'
      cases hfails'
      exact hmem.resolve_left List.not_mem_nil

end Document

end WordFields
