import Mathlib.Data.List.Dedup
import WordFields.Proofs.Field.Rendering
import WordFields.Proofs.Field.Scanning

/-!
# What is reported of broken fields

A broken field inside others breaks these as well, so the scan over a document meets its problem
several times: at each field around it and then at the field itself.  It reports a problem only if no
other one has been reported for the same run.  That loses nothing, for a problem is told apart by the
run that it names (`eq_of_run_eq`): a field opens there, and reading it alone gives the very same
problem.  So what is reported is the list of all problems that are met (`problemsFrom`) without
repetitions.
-/

namespace WordFields

instance (fields : List IfSpan) (index : Nat) : Decidable (Uncovered fields index) :=
  inferInstanceAs (Decidable (∀ field ∈ fields, index < field.first ∨ field.next ≤ index))

namespace Document

variable {d : Document} {options : Options} {runs : List NodeId} {fields : List IfSpan}
  {index : Nat}

/-- Two problems at the same run are the same, wherever they are met. -/
lemma eq_of_run_eq {index index' : Nat} {p p' : IfProblem}
    (h : d.readIf options runs index = .error p) (h' : d.readIf options runs index' = .error p')
    (hrun : p.run = p'.run) : p = p' := by
  have horigin := readIf_error_origin h
  rw [hrun, readIf_error_origin h'] at horigin
  cases horigin
  rfl

/-! ## All problems -/

/-- The problem of the field that opens at an index outside the given fields. -/
def problemAt? (d : Document) (options : Options) (runs : List NodeId) (fields : List IfSpan)
    (index : Nat) : Option IfProblem :=
  if d.opensIf runs index = true ∧ Uncovered fields index then
    match d.readIf options runs index with
    | .error p => some p
    | .ok _ => none
  else none

/-- The problems of all fields that open outside the given ones, from an index on, in order.  The
problem of a broken field inside others is there once for each of them. -/
def problemsFrom (d : Document) (options : Options) (runs : List NodeId) (fields : List IfSpan)
    (index : Nat) : List IfProblem :=
  (List.range' index (runs.length - index)).filterMap (d.problemAt? options runs fields)

lemma problemAt?_eq_some_iff {p : IfProblem} :
    d.problemAt? options runs fields index = some p ↔
      (d.opensIf runs index = true ∧ Uncovered fields index) ∧
        d.readIf options runs index = .error p := by
  unfold problemAt?
  split
  next houtside =>
    cases d.readIf options runs index <;> simp [houtside]
  next houtside => simp [houtside]

lemma exists_of_mem_problemsFrom {p : IfProblem}
    (h : p ∈ d.problemsFrom options runs fields index) :
    ∃ later, d.readIf options runs later = .error p := by
  obtain ⟨later, -, hlater⟩ := List.mem_filterMap.1 h
  exact ⟨later, (problemAt?_eq_some_iff.1 hlater).2⟩

lemma problemsFrom_of_length_le (h : runs.length ≤ index) :
    d.problemsFrom options runs fields index = [] := by
  rw [problemsFrom, Nat.sub_eq_zero_of_le h]
  rfl

lemma problemsFrom_of_problemAt? {p : IfProblem}
    (h : d.problemAt? options runs fields index = some p) :
    d.problemsFrom options runs fields index =
      p :: d.problemsFrom options runs fields (index + 1) := by
  have hlt : index < runs.length := by
    by_contra hend
    have hrun : runs[index]? = none := List.getElem?_eq_none (by omega)
    have hopens := (problemAt?_eq_some_iff.1 h).1.1
    simp [opensIf, hrun] at hopens
  have hlength : runs.length - index = (runs.length - (index + 1)) + 1 := by omega
  rw [problemsFrom, hlength, List.range'_succ, List.filterMap_cons_some h]
  rfl

lemma problemsFrom_of_problemAt?_none (h : d.problemAt? options runs fields index = none) :
    d.problemsFrom options runs fields index =
      d.problemsFrom options runs fields (index + 1) := by
  rcases Nat.lt_or_ge index runs.length with hlt | hend
  · have hlength : runs.length - index = (runs.length - (index + 1)) + 1 := by omega
    rw [problemsFrom, hlength, List.range'_succ, List.filterMap_cons_none h]
    rfl
  · rw [problemsFrom_of_length_le hend, problemsFrom_of_length_le (by omega)]

/-- What a field covers has no problems of its own. -/
lemma problemsFrom_cons {field : IfSpan} (h : d.readIf options runs index = .ok field) :
    d.problemsFrom options runs (field :: fields) index =
      d.problemsFrom options runs fields field.next := by
  have hfirst := readIf_first h
  have hprogress := readIf_progress h
  have hend := readIf_next_le_length h
  have hrange : List.range' index (runs.length - index) =
      List.range' index (field.next - index) ++
        List.range' field.next (runs.length - field.next) := by
    rw [show runs.length - index = (field.next - index) + (runs.length - field.next) by omega,
      ← List.range'_append, show index + 1 * (field.next - index) = field.next by omega]
  have hcovered : (List.range' index (field.next - index)).filterMap
      (d.problemAt? options runs (field :: fields)) = [] := by
    refine List.filterMap_eq_nil_iff.2 fun later hlater => ?_
    rw [List.mem_range'_1] at hlater
    have hnot : ¬ Uncovered (field :: fields) later := by
      rw [uncovered_cons]
      omega
    simp [problemAt?, hnot]
  rw [problemsFrom, problemsFrom, hrange, List.filterMap_append, hcovered, List.nil_append]
  refine List.filterMap_congr fun later hlater => ?_
  rw [List.mem_range'_1] at hlater
  have hiff : Uncovered (field :: fields) later ↔ Uncovered fields later := by
    rw [uncovered_cons]
    exact and_iff_right (.inr hlater.1)
  simp only [problemAt?, hiff]

/-! ## The problems that are reported -/

/-- A scan reports all problems without repetitions, except for those whose runs are reported
already. -/
lemma Scan.problems_eq {reported : List Nat} {problems : List IfProblem}
    (h : Scan d options runs index reported fields problems) :
    problems =
      ((d.problemsFrom options runs fields index).filter fun p => p.run ∉ reported).eraseDups := by
  induction h with
  | finished atEnd =>
    rw [problemsFrom_of_length_le atEnd]
    rfl
  | field _ reads _ ih => rw [problemsFrom_cons reads, ih]
  | @known index reported p fields problems opens fails isKnown rest ih =>
    have hat : d.problemAt? options runs fields index = some p :=
      problemAt?_eq_some_iff.2 ⟨⟨opens, rest.uncovered_before (Nat.lt_succ_self _)⟩, fails⟩
    rw [problemsFrom_of_problemAt? hat, List.filter_cons_of_neg (by simpa using isKnown), ih]
  | @fresh index reported p fields problems opens fails isNew rest ih =>
    have hat : d.problemAt? options runs fields index = some p :=
      problemAt?_eq_some_iff.2 ⟨⟨opens, rest.uncovered_before (Nat.lt_succ_self _)⟩, fails⟩
    rw [problemsFrom_of_problemAt? hat, List.filter_cons_of_pos (by simpa using isNew),
      List.eraseDups_cons, List.filter_filter, ih]
    congr 2
    refine List.filter_congr fun p' hp' => ?_
    -- leaving out the run leaves out this problem and no other
    obtain ⟨later, hfails'⟩ := exists_of_mem_problemsFrom hp'
    have hiff : p'.run = p.run ↔ p' = p := ⟨eq_of_run_eq hfails' fails, congrArg IfProblem.run⟩
    rw [Bool.eq_iff_iff]
    simp [hiff]
  | other opens rest ih =>
    rw [problemsFrom_of_problemAt?_none (by simp [problemAt?, opens]), ih]

/-- The problem with a field is that of a field which cannot be read by itself: it names a run no
earlier than the field's, a field opens there, and reading that one gives the same problem.  So a
problem is known by its run, and the report has every problem that is met, in order and each of them
once. -/
theorem readIf_error_blames (d : Document) (options : Options) :
    (∀ runs index p, d.opensIf runs index = true → d.readIf options runs index = .error p →
      index ≤ p.run ∧ d.opensIf runs p.run = true ∧ d.readIf options runs p.run = .error p) ∧
      (∀ runs index index' p p', d.readIf options runs index = .error p →
        d.readIf options runs index' = .error p' → p.run = p'.run → p = p') ∧
      (d.ifSpans options).2 =
        (d.problemsFrom options d.runs (d.ifSpans options).1 0).eraseDups.map
          IfProblem.toDiagnostic := by
  refine ⟨fun runs index p hopens hfails => ?_,
    fun runs index index' p p' hfails hfails' => eq_of_run_eq hfails hfails', ?_⟩
  · refine ⟨?_, ?_, readIf_error_origin hfails⟩
    · rcases readIf_error_run hfails with hrun | ⟨hrun, -⟩ <;> omega
    · rcases readIf_error_run hfails with hrun | ⟨-, hrun⟩
      · rwa [hrun]
      · exact hrun
  · obtain ⟨problems, hdiagnostics, hscan⟩ :=
      @exists_scan d options d.runs (d.runs.length + 1) 0 [] (by omega)
    have hproblems := hscan.problems_eq
    rw [List.filter_eq_self.2 (by simp)] at hproblems
    rw [hproblems] at hdiagnostics
    exact hdiagnostics

/-- A field with two `%else%` inside another one: its problem is met twice and reported once. -/
theorem readIf_error_blames_nested :
    let marker (marker : Marker) : Cell := .run [.marker marker]
    let d := ofForest [Tree.page [[.field ⟨"a", "=", "1"⟩, .field ⟨"b", "<>", "2"⟩,
      marker .elseMarker, marker .elseMarker, marker .endMarker, marker .endMarker]]]
    ∃ p, p.fault = .repeatedElse 11 ∧ p.run = 5 ∧ d.opensIf d.runs 0 = true ∧
      d.readIf {} d.runs 0 = .error p ∧ d.opensIf d.runs p.run = true ∧
      d.readIf {} d.runs p.run = .error p ∧
      d.problemsFrom {} d.runs (d.ifSpans {}).1 0 = [p, p] ∧
      (d.ifSpans {}).2 = [p.toDiagnostic] := by
  intro marker d
  let p : IfProblem :=
    ⟨.repeatedElse 11, 5, "IF \"b\" <> \"2\" \"%iftrue%\" \"%iffalse%\""⟩
  have hat : d.problemAt? {} d.runs [] 0 = some p := by decide +kernel
  have hmet : d.problemsFrom {} d.runs (d.ifSpans {}).1 0 = [p, p] := by decide +kernel
  obtain ⟨⟨hopens, -⟩, hfails⟩ := problemAt?_eq_some_iff.1 hat
  obtain ⟨hblames, -, hreport⟩ := readIf_error_blames d {}
  obtain ⟨-, hopens', hfails'⟩ := hblames d.runs 0 p hopens hfails
  refine ⟨p, rfl, rfl, hopens, hfails, hopens', hfails', hmet, ?_⟩
  rw [hreport, hmet]
  rfl

end Document

end WordFields