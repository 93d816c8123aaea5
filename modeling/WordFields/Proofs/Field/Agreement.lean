import WordFields.Proofs.Field.Reading
import WordFields.Proofs.Word.Likeness

/-!
# Reading runs of two documents alike

IF fields are read from a sequence of runs, and a document is only asked a few things about them:
where a field opens, what its header is, whether a run has a marker, and what its text and its texts
are.  `Accord` lists what has to go along for two documents, for a relation between their runs, one
between contents and one between fields; everything that is read then goes along, problems included
(`Accord.readIfsFrom`).  Two documents may be compared for the same runs, as one document before and
after a change (`Agree`).
-/

namespace WordFields

/-- Two readings that both fail, with related problems, or both succeed, with related results. -/
inductive Outcome {α : Type} (P : IfProblem → IfProblem → Prop) (S : α → α → Prop) :
    Except IfProblem α → Except IfProblem α → Prop where
  | error {p p' : IfProblem} (related : P p p') : Outcome P S (.error p) (.error p')
  | ok {a a' : α} (related : S a a') : Outcome P S (.ok a) (.ok a')

namespace Outcome

variable {α : Type} {P : IfProblem → IfProblem → Prop} {S : α → α → Prop}
  {read' : Except IfProblem α}

lemma exists_error {p : IfProblem} (h : Outcome P S (.error p) read') :
    ∃ p', read' = .error p' ∧ P p p' := by
  cases h with
  | error related => exact ⟨_, rfl, related⟩

lemma exists_ok {a : α} (h : Outcome P S (.ok a) read') : ∃ a', read' = .ok a' ∧ S a a' := by
  cases h with
  | ok related => exact ⟨_, rfl, related⟩

end Outcome

namespace Document

variable {d d' : Document} {options : Options} {runs : List NodeId}

/-! ## Where a field opens -/

lemma opensIf_iff {index : Nat} :
    d.opensIf runs index = true ↔
      ∃ run next instruction, runs[index]? = some run ∧ runs[index + 1]? = some next ∧
        d.runMark? run = some .beginning ∧ d.runInstruction? next = some instruction ∧
        Instruction.isConditional (d.textContent instruction).toList = true := by
  unfold opensIf
  constructor
  · intro h
    split at h
    next run next hrun hnext =>
      obtain ⟨hmark, hinstruction⟩ := Bool.and_eq_true_iff.1 h
      obtain ⟨instruction, hinstruction, hconditional⟩ := (Option.any_eq_true _ _).1 hinstruction
      exact ⟨run, next, instruction, hrun, hnext, beq_iff_eq.1 hmark, hinstruction, hconditional⟩
    next => cases h
  · rintro ⟨run, next, instruction, hrun, hnext, hmark, hinstruction, hconditional⟩
    simp [hrun, hnext, hmark, hinstruction, hconditional]

/-- The header of a field is read from its instruction and from the run of its last mark. -/
lemma readHeader_congr {index : Nat} {node : NodeId} {text : String}
    (hat : d.instructionAt runs index = (node, text))
    (hat' : d'.instructionAt runs index = (node, text))
    (htriad : (d'.locateTriad node).map FieldTriad.ending =
      (d.locateTriad node).map FieldTriad.ending)
    (hrun : ∀ triad, d.locateTriad node = .ok triad →
      d'.enclosingRun? triad.ending = d.enclosingRun? triad.ending) :
    d'.readHeader runs index = d.readHeader runs index := by
  unfold readHeader
  simp only [hat, hat']
  split
  next => rfl
  next condition _ =>
    cases hfound : d.locateTriad node with
    | error missing =>
      cases hfound' : d'.locateTriad node with
      | error missing' =>
        rw [hfound, hfound'] at htriad
        cases htriad
        rfl
      | ok triad' =>
        rw [hfound, hfound'] at htriad
        cases htriad
    | ok triad =>
      cases hfound' : d'.locateTriad node with
      | error missing' =>
        rw [hfound, hfound'] at htriad
        cases htriad
      | ok triad' =>
        rw [hfound, hfound'] at htriad
        have hending : triad'.ending = triad.ending := Except.ok.inj htriad
        simp only [codeEnd?, hending, hrun triad hfound]
  next => rfl

/-! ## Fields found alike -/

namespace Alike

variable {T : NodeId → NodeId → Prop} {runs' : List NodeId} {run run' : NodeId}

lemma runMark?_eq (h : Alike d d' T) (hrun : T run run') : d'.runMark? run' = d.runMark? run := by
  rw [runMark?, runMark?]
  rcases rel_iff.1 (h.firstWordDescendant? hrun "fldChar") with
    ⟨hnone, hnone'⟩ | ⟨mark, mark', hmark, hmark', hrel⟩
  · rw [hnone, hnone']
    rfl
  · rw [hmark, hmark', Option.bind_some, Option.bind_some, h.fieldMark?_eq hrel]

/-- Related runs have related instructions, with the same text. -/
lemma runInstruction? (h : Alike d d' T) (hrun : T run run') :
    (d.runInstruction? run = none ∧ d'.runInstruction? run' = none) ∨
      ∃ instruction instruction', d.runInstruction? run = some instruction ∧
        d'.runInstruction? run' = some instruction' ∧ T instruction instruction' ∧
          d.isElement instruction = true ∧
            d'.textContent instruction' = d.textContent instruction := by
  rcases rel_iff.1 (h.firstWordDescendant? hrun "instrText") with
    hnone | ⟨instruction, instruction', hfound, hfound', hrel⟩
  · exact .inl hnone
  · have hword : d.isWord instruction "instrText" = true := by
      rw [firstWordDescendant?_eq_head?] at hfound
      exact (List.mem_filter.1 (List.mem_of_head? hfound)).2
    exact .inr ⟨instruction, instruction', hfound, hfound', hrel, isElement_of_isWord hword,
      h.textContent_eq hrel hword⟩

lemma opensIf_eq (h : Alike d d' T) (hruns : List.Forall₂ T runs runs') (index : Nat) :
    d'.opensIf runs' index = d.opensIf runs index := by
  unfold opensIf
  rcases rel_iff.1 (rel_getElem? hruns index) with
    ⟨hnone, hnone'⟩ | ⟨run, run', hrun, hrun', hrel⟩
  · rw [hnone, hnone']
  · rcases rel_iff.1 (rel_getElem? hruns (index + 1)) with
      ⟨hnone, hnone'⟩ | ⟨next, next', hnext, hnext', hrelNext⟩
    · rw [hrun, hrun', hnone, hnone']
    · rw [hrun, hrun', hnext, hnext']
      simp only [h.runMark?_eq hrel]
      rcases h.runInstruction? hrelNext with
        ⟨hnone, hnone'⟩ | ⟨instruction, instruction', hfound, hfound', -, -, htext⟩
      · rw [hnone, hnone']
        rfl
      · rw [hfound, hfound', Option.any_some, Option.any_some, htext]

/-- The headers of two fields are the same if the ways up to runs go along, too. -/
lemma readHeader_eq (h : Alike d d' T) (hruns : List.Forall₂ T runs runs')
    (hup : ∀ {x x'}, T x x' → d.isElement x = true →
      Option.Rel T (d.enclosingRun? x) (d'.enclosingRun? x'))
    {index : Nat} (hopens : d.opensIf runs index = true) :
    d'.readHeader runs' index = d.readHeader runs index := by
  obtain ⟨next, instruction, hnext, hfound⟩ : ∃ next instruction,
      runs[index + 1]? = some next ∧ d.runInstruction? next = some instruction := by
    obtain ⟨-, next, instruction, -, hnext, -, hfound, -⟩ := opensIf_iff.1 hopens
    exact ⟨next, instruction, hnext, hfound⟩
  rcases rel_iff.1 (rel_getElem? hruns (index + 1)) with
    ⟨hnone, -⟩ | ⟨run, next', hrun, hnext', hrelNext⟩
  · rw [hnext] at hnone
    cases hnone
  obtain rfl : next = run := Option.some.inj (hnext.symm.trans hrun)
  rcases h.runInstruction? hrelNext with
    ⟨hnone, -⟩ | ⟨node, instruction', hnode, hfound', hrel, helement, htext⟩
  · rw [hfound] at hnone
    cases hnone
  obtain rfl : instruction = node := Option.some.inj (hfound.symm.trans hnode)
  have hat : d.instructionAt runs index = (instruction, d.textContent instruction) := by
    simp only [instructionAt, hnext, Option.bind_some, hfound]
  have hat' : d'.instructionAt runs' index = (instruction', d.textContent instruction) := by
    simp only [instructionAt, hnext', Option.bind_some, hfound', htext]
  have hcode : ∀ {mark mark' : NodeId}, T mark mark' → d.isElement mark = true →
      d'.codeEnd? runs' index mark' = d.codeEnd? runs index mark := by
    intro mark mark' hmark helement
    rw [codeEnd?, codeEnd?]
    rcases rel_iff.1 (hup hmark helement) with ⟨hnone, hnone'⟩ | ⟨run, run', hrun, hrun', hrel⟩
    · rw [hnone, hnone']
      rfl
    · rw [hrun, hrun', Option.bind_some, Option.bind_some,
        rel_idxOf? h.biUnique (List.forall₂_drop (index + 2) hruns) hrel]
  unfold readHeader
  simp only [hat, hat']
  split
  next => rfl
  next condition _ =>
    rcases h.locateTriad hrel helement with
      ⟨missing, herror, herror'⟩ | ⟨triad, triad', htriad, htriad', -, hending, -, helement⟩
    · rw [herror, herror']
    · rw [htriad, htriad']
      simp only [hcode hending helement]
  next => rfl

end Alike

/-! ## Answers about two sequences of runs -/

/-- Whether two documents answer alike what is asked of two sequences of runs when fields are read,
each under its own options.  `T` relates the runs, `R` contents and `S` fields. -/
structure Accord (d d' : Document) (options options' : Options) (runs runs' : List NodeId)
    (T : NodeId → NodeId → Prop) (R : IfContent → IfContent → Prop) (S : IfSpan → IfSpan → Prop) :
    Prop where
  runs_rel : List.Forall₂ T runs runs'
  opensIf_eq : ∀ index, d'.opensIf runs' index = d.opensIf runs index
  readHeader_eq : ∀ index, d.opensIf runs index = true →
    d'.readHeader runs' index = d.readHeader runs index
  hasMarker_eq : ∀ {run run'}, run ∈ runs → T run run' → d'.hasMarker run' = d.hasMarker run
  start : R {} {}
  isClosed_eq : ∀ {content content'}, R content content' → content'.isClosed = content.isClosed
  next_eq : ∀ {field field'}, S field field' → field'.next = field.next
  nested : ∀ {content content' field field'}, R content content' → S field field' →
    R (content.add (.nested field)) (content'.add (.nested field'))
  markers : ∀ {content content' run run'}, run ∈ runs → T run run' → d.hasMarker run = true →
    R content content' →
      Option.Rel R (content.addMarkerRun? options run ((d.runTexts run).map Prod.snd))
        (content'.addMarkerRun? options' run' ((d'.runTexts run').map Prod.snd))
  plain : ∀ {content content' run run'}, run ∈ runs → T run run' → d.hasMarker run = false →
    R content content' →
      R (content.addRun options run (d.runText run))
        (content'.addRun options' run' (d'.runText run'))
  span : ∀ index header next {content content'}, R content content' →
    S (spanOf runs index header content next) (spanOf runs' index header content' next)

namespace Accord

variable {options' : Options} {runs' : List NodeId} {T : NodeId → NodeId → Prop}
  {R : IfContent → IfContent → Prop} {S : IfSpan → IfSpan → Prop}

lemma readContent (h : Accord d d' options options' runs runs' T R S)
    {nested nested' : Nat → Except IfProblem IfSpan}
    (hnested : ∀ index, d.opensIf runs index = true → Outcome Eq S (nested index) (nested' index))
    (problem : IfFault → IfProblem) (steps index : Nat) {content content' : IfContent}
    (hcontent : R content content') :
    Outcome Eq (fun read read' => R read.1 read'.1 ∧ read'.2 = read.2)
      (d.readContent options runs nested problem steps index content)
      (d'.readContent options' runs' nested' problem steps index content') := by
  induction steps generalizing index content content' with
  | zero =>
    have hclosed := h.isClosed_eq hcontent
    cases hopen : content.isClosed with
    | true =>
      rw [readContent_of_closed hopen, readContent_of_closed (hclosed.trans hopen)]
      exact .ok ⟨hcontent, rfl⟩
    | false =>
      simp only [Document.readContent, hopen, hclosed.trans hopen]
      exact .error rfl
  | succ steps ih =>
    have hclosed := h.isClosed_eq hcontent
    cases hopen : content.isClosed with
    | true =>
      rw [readContent_of_closed hopen, readContent_of_closed (hclosed.trans hopen)]
      exact .ok ⟨hcontent, rfl⟩
    | false =>
      rcases rel_iff.1 (rel_getElem? h.runs_rel index) with
        ⟨hrun, hrun'⟩ | ⟨run, run', hrun, hrun', hrel⟩
      · rw [readContent_at_end hopen hrun, readContent_at_end (hclosed.trans hopen) hrun']
        exact .error rfl
      · have hmem : run ∈ runs := List.mem_of_getElem? hrun
        rw [readContent_succ hopen hrun, readContent_succ (hclosed.trans hopen) hrun',
          h.opensIf_eq, h.hasMarker_eq hmem hrel]
        cases hopens : d.opensIf runs index with
        | true =>
          have hfield := hnested index hopens
          generalize nested index = read at hfield ⊢
          generalize nested' index = read' at hfield ⊢
          cases hfield with
          | error hproblem => exact .error hproblem
          | ok hfield =>
            simp only [if_true, h.next_eq hfield]
            exact ih _ (h.nested hcontent hfield)
        | false =>
          cases hmarked : d.hasMarker run with
          | true =>
            have hread := h.markers hmem hrel hmarked hcontent
            generalize content.addMarkerRun? options run _ = read at hread ⊢
            generalize content'.addMarkerRun? options' run' _ = read' at hread ⊢
            cases hread with
            | none => exact .error rfl
            | some hread => exact ih _ hread
          | false => exact ih _ (h.plain hmem hrel hmarked hcontent)

lemma readIfWithin (h : Accord d d' options options' runs runs' T R S) {depth index : Nat}
    (hopens : d.opensIf runs index = true) :
    Outcome Eq S (d.readIfWithin options runs depth index)
      (d'.readIfWithin options' runs' depth index) := by
  induction depth generalizing index with
  | zero => exact .error rfl
  | succ depth ih =>
    rw [readIfWithin_succ, readIfWithin_succ, h.readHeader_eq index hopens,
      ← h.runs_rel.length_eq]
    cases d.readHeader runs index with
    | error p => exact .error rfl
    | ok header =>
      have hcontent := h.readContent (fun _ => ih) (fun fault => ⟨fault, index, header.instruction⟩)
        runs.length (header.codeEnd + 1) h.start
      simp only
      generalize d.readContent options runs _ _ _ _ _ = read at hcontent ⊢
      generalize d'.readContent options' runs' _ _ _ _ _ = read' at hcontent ⊢
      cases hcontent with
      | error hproblem => exact .error hproblem
      | @ok read read' hread =>
        obtain ⟨content, next⟩ := read
        obtain ⟨content', next'⟩ := read'
        obtain ⟨hcontent, rfl⟩ := hread
        exact .ok (h.span index header _ hcontent)

/-- The fields that are read are related, and the problems are the same. -/
theorem readIfsFrom (h : Accord d d' options options' runs runs' T R S) (steps index : Nat)
    (reported : List Nat) :
    List.Forall₂ S (d.readIfsFrom options runs steps index reported).1
        (d'.readIfsFrom options' runs' steps index reported).1 ∧
      (d'.readIfsFrom options' runs' steps index reported).2 =
        (d.readIfsFrom options runs steps index reported).2 := by
  induction steps generalizing index reported with
  | zero => exact ⟨.nil, rfl⟩
  | succ steps ih =>
    rw [Document.readIfsFrom, Document.readIfsFrom, h.opensIf_eq, ← h.runs_rel.length_eq]
    split
    · exact ⟨.nil, rfl⟩
    cases hopens : d.opensIf runs index with
    | false => exact ih (index + 1) reported
    | true =>
      have hfield : Outcome Eq S (d.readIf options runs index) (d'.readIf options' runs' index) := by
        rw [readIf, readIf, ← h.runs_rel.length_eq]
        exact h.readIfWithin hopens
      generalize d.readIf options runs index = read at hfield ⊢
      generalize d'.readIf options' runs' index = read' at hfield ⊢
      cases hfield with
      | @error p _ hproblem =>
        subst hproblem
        simp only [if_true]
        split
        · exact ih (index + 1) reported
        · obtain ⟨hfields, hdiagnostics⟩ := ih (index + 1) (p.run :: reported)
          exact ⟨hfields, congrArg (p.toDiagnostic :: ·) hdiagnostics⟩
      | @ok field field' hfield =>
        simp only [if_true, h.next_eq hfield]
        obtain ⟨hfields, hdiagnostics⟩ := ih field.next reported
        exact ⟨.cons hfield hfields, hdiagnostics⟩

end Accord

/-! ## Answers about runs -/

/-- Whether two documents answer alike what is asked of a sequence of runs when fields are read.
`R` relates contents, and `S` fields. -/
structure Agree (d d' : Document) (options : Options) (runs : List NodeId)
    (R : IfContent → IfContent → Prop) (S : IfSpan → IfSpan → Prop) : Prop where
  opensIf_eq : ∀ index, d'.opensIf runs index = d.opensIf runs index
  readHeader_eq : ∀ index, d.opensIf runs index = true →
    d'.readHeader runs index = d.readHeader runs index
  hasMarker_eq : ∀ run ∈ runs, d'.hasMarker run = d.hasMarker run
  start : R {} {}
  isClosed_eq : ∀ {content content'}, R content content' → content'.isClosed = content.isClosed
  next_eq : ∀ {field field'}, S field field' → field'.next = field.next
  nested : ∀ {content content' field field'}, R content content' → S field field' →
    R (content.add (.nested field)) (content'.add (.nested field'))
  markers : ∀ {content content' run}, run ∈ runs → d.hasMarker run = true → R content content' →
    Option.Rel R (content.addMarkerRun? options run ((d.runTexts run).map Prod.snd))
      (content'.addMarkerRun? options run ((d'.runTexts run).map Prod.snd))
  plain : ∀ {content content' run}, run ∈ runs → d.hasMarker run = false → R content content' →
    R (content.addRun options run (d.runText run)) (content'.addRun options run (d'.runText run))
  span : ∀ index header next {content content'}, R content content' →
    S (spanOf runs index header content next) (spanOf runs index header content' next)

namespace Agree

variable {R : IfContent → IfContent → Prop} {S : IfSpan → IfSpan → Prop}

/-- Documents that give the same answers agree on all there is. -/
lemma of_eq (hopens : ∀ index, d'.opensIf runs index = d.opensIf runs index)
    (hheader : ∀ index, d.opensIf runs index = true →
      d'.readHeader runs index = d.readHeader runs index)
    (hmarker : ∀ run ∈ runs, d'.hasMarker run = d.hasMarker run)
    (htexts : ∀ run ∈ runs, d.hasMarker run = true →
      (d'.runTexts run).map Prod.snd = (d.runTexts run).map Prod.snd)
    (htext : ∀ run ∈ runs, d'.runText run = d.runText run) :
    Agree d d' options runs (fun content content' => content' = content)
      (fun field field' => field' = field) where
  opensIf_eq := hopens
  readHeader_eq := hheader
  hasMarker_eq := hmarker
  start := rfl
  isClosed_eq := by
    rintro content _ rfl
    rfl
  next_eq := by
    rintro field _ rfl
    rfl
  nested := by
    rintro content _ field _ rfl rfl
    rfl
  markers := by
    rintro _ content run hrun hmarked rfl
    rw [htexts run hrun hmarked]
    refine rel_self ?_ _
    exact fun _ => rfl
  plain := by
    rintro content _ run hrun - rfl
    rw [htext run hrun]
  span := by
    rintro index header next content _ rfl
    rfl

lemma accord (h : Agree d d' options runs R S) :
    Accord d d' options options runs runs (fun run run' => run' = run) R S where
  runs_rel := (List.forall₂_eq_eq_eq ▸ rfl : List.Forall₂ Eq runs runs).flip
  opensIf_eq := h.opensIf_eq
  readHeader_eq := h.readHeader_eq
  hasMarker_eq := by
    rintro _ run hrun rfl
    exact h.hasMarker_eq run hrun
  start := h.start
  isClosed_eq := h.isClosed_eq
  next_eq := h.next_eq
  nested := h.nested
  markers := by
    rintro _ _ _ run hrun rfl hmarked hcontent
    exact h.markers hrun hmarked hcontent
  plain := by
    rintro _ _ _ run hrun rfl hmarked hcontent
    exact h.plain hrun hmarked hcontent
  span := h.span

/-- The fields that are read are related, and the problems are the same. -/
theorem readIfsFrom (h : Agree d d' options runs R S) (steps index : Nat) (reported : List Nat) :
    List.Forall₂ S (d.readIfsFrom options runs steps index reported).1
        (d'.readIfsFrom options runs steps index reported).1 ∧
      (d'.readIfsFrom options runs steps index reported).2 =
        (d.readIfsFrom options runs steps index reported).2 :=
  h.accord.readIfsFrom steps index reported

end Agree

end Document

end WordFields
