import WordFields.Proofs.Field.Mirror
import WordFields.Proofs.Field.Recasting

/-!
# Fields of documents that differ in some texts

In documents that mirror each other the texts of related runs match (`Mirrors.matched`): they are
the same, or they have no marker.  Such texts take the reading of a field the same course, whatever
the options say of results that are shown, so the same fields are read with the same problems
(`Mirrors.accord`), in related runs.

What is kept of the runs with markers matches in turn, since a text without a marker is kept or
deleted as a whole (`Matched.addPieces?`).
-/

namespace WordFields

/-! ## Matching texts -/

/-- Whether two lists of text nodes have the same texts at related nodes, up to texts without a
marker at loose nodes.  Unless the matching is strict, such texts at nodes that are related to no
other may be in only one of them. -/
inductive Matched (T : NodeId → NodeId → Prop) (loose : NodeId → Prop) (strict : Prop) :
    List (NodeId × String) → List (NodeId × String) → Prop
  | nil : Matched T loose strict [] []
  | same {x x' : NodeId} {text : String} {texts texts' : List (NodeId × String)} (related : T x x')
      (rest : Matched T loose strict texts texts') :
    Matched T loose strict ((x, text) :: texts) ((x', text) :: texts')
  | both {x x' : NodeId} {text text' : String} {texts texts' : List (NodeId × String)}
      (related : T x x') (isLoose : loose x) (unmarked : Marker.occursIn text.toList = false)
      (unmarked' : Marker.occursIn text'.toList = false)
      (rest : Matched T loose strict texts texts') :
    Matched T loose strict ((x, text) :: texts) ((x', text') :: texts')
  | left {x : NodeId} {text : String} {texts texts' : List (NodeId × String)} (lax : ¬ strict)
      (alone : ∀ x', ¬ T x x') (unmarked : Marker.occursIn text.toList = false)
      (rest : Matched T loose strict texts texts') :
    Matched T loose strict ((x, text) :: texts) texts'
  | right {x' : NodeId} {text' : String} {texts texts' : List (NodeId × String)} (lax : ¬ strict)
      (alone : ∀ x, ¬ T x x') (unmarked : Marker.occursIn text'.toList = false)
      (rest : Matched T loose strict texts texts') :
    Matched T loose strict texts ((x', text') :: texts')

namespace Matched

variable {T : NodeId → NodeId → Prop} {loose : NodeId → Prop} {strict : Prop}
  {texts texts' more more' : List (NodeId × String)}

lemma append (h : Matched T loose strict texts texts') (hmore : Matched T loose strict more more') :
    Matched T loose strict (texts ++ more) (texts' ++ more') := by
  induction h with
  | nil => exact hmore
  | same related _ ih => exact .same related ih
  | both related isLoose unmarked unmarked' _ ih =>
    exact .both related isLoose unmarked unmarked' ih
  | left lax alone unmarked _ ih => exact .left lax alone unmarked ih
  | right lax alone unmarked _ ih => exact .right lax alone unmarked ih

lemma mono {loose' : NodeId → Prop} (h : Matched T loose strict texts texts')
    (himp : ∀ x, loose x → loose' x) : Matched T loose' strict texts texts' := by
  induction h with
  | nil => exact .nil
  | same related _ ih => exact .same related ih
  | both related isLoose unmarked unmarked' _ ih =>
    exact .both related (himp _ isLoose) unmarked unmarked' ih
  | left lax alone unmarked _ ih => exact .left lax alone unmarked ih
  | right lax alone unmarked _ ih => exact .right lax alone unmarked ih

/-- Related nodes have the same text, or they are loose and have texts without a marker. -/
lemma lookup (h : Matched T loose strict texts texts') (hunique : Relator.BiUnique T)
    {x x' : NodeId} (hx : T x x') :
    texts'.lookup x' = texts.lookup x ∨ loose x ∧ ∃ text text', texts.lookup x = some text ∧
      texts'.lookup x' = some text' ∧ Marker.occursIn text.toList = false ∧
        Marker.occursIn text'.toList = false := by
  have hsame : ∀ {y y' : NodeId}, T y y' → (x' == y') = (x == y) := by
    intro y y' hy
    rw [Bool.eq_iff_iff, beq_iff_eq, beq_iff_eq]
    exact (Relator.rel_eq hunique hx hy).symm
  induction h with
  | nil => exact .inl rfl
  | same related _ ih =>
    rw [List.lookup_cons, List.lookup_cons, hsame related]
    split
    · exact .inl rfl
    · exact ih
  | @both y y' text text' _ _ related isLoose unmarked unmarked' _ ih =>
    rw [List.lookup_cons, List.lookup_cons, hsame related]
    split
    next heq =>
      obtain rfl := eq_of_beq heq
      exact .inr ⟨isLoose, text, text', rfl, rfl, unmarked, unmarked'⟩
    next => exact ih
  | @left y text _ _ _ alone _ _ ih =>
    have hne : (x == y) = false := beq_eq_false_iff_ne.2 fun heq => alone x' (heq ▸ hx)
    rw [List.lookup_cons, hne]
    exact ih
  | @right y' text' _ _ _ alone _ _ ih =>
    have hne : (x' == y') = false := beq_eq_false_iff_ne.2 fun heq => alone x (heq ▸ hx)
    rw [List.lookup_cons, hne]
    exact ih

/-- Matching texts have markers alike. -/
lemma any_occursIn (h : Matched T loose strict texts texts') :
    texts'.any (fun entry => Marker.occursIn entry.2.toList) =
      texts.any fun entry => Marker.occursIn entry.2.toList := by
  induction h with
  | nil => rfl
  | same _ _ ih => rw [List.any_cons, List.any_cons, ih]
  | both _ _ unmarked unmarked' _ ih => rw [List.any_cons, List.any_cons, ih, unmarked, unmarked']
  | left _ _ unmarked _ ih => rw [List.any_cons, ih, unmarked, Bool.false_or]
  | right _ _ unmarked _ ih => rw [List.any_cons, ih, unmarked, Bool.false_or]

end Matched

/-! ## What is kept -/

/-- The texts of some text nodes that stay when one side is kept. -/
def keptEntries (keep : Side) (texts : List (NodeId × String)) (sides : List Side) :
    List (NodeId × String) :=
  (keptNodes keep texts sides).map joinKept

/-- A text without a marker is kept as a whole, or not at all. -/
lemma keptEntries_cons_of_unmarked (keep : Side) {x : NodeId} {text : String}
    (h : Marker.occursIn text.toList = false) (texts : List (NodeId × String))
    (sides : List Side) :
    keptEntries keep ((x, text) :: texts) sides =
      (x, if sides.headD .outside = keep ∨ sides.headD .outside = .outside then text else "") ::
        keptEntries keep texts sides.tail := by
  have hpieces := Piece.ofText_of_cut?_none (Marker.occursIn_eq_false_iff.1 h)
  have htail : sides.drop (Piece.texts (Piece.ofText text.toList)).length = sides.tail := by
    rw [hpieces]
    exact List.drop_one
  rw [keptEntries, keptNodes, htail, List.map_cons, joinKept, hpieces, keptTexts, keptTexts]
  congr 2
  split
  · simp
  · rfl

/-- What is kept of a text without a marker has none. -/
lemma occursIn_ite {text : String} (h : Marker.occursIn text.toList = false) (p : Prop)
    [Decidable p] : Marker.occursIn (if p then text else "").toList = false := by
  split
  · exact h
  · rfl

/-- Sides that are left over do not matter. -/
lemma keptTexts_append (keep : Side) {pieces : List Piece} {sides : List Side}
    (h : sides.length = (Piece.texts pieces).length) (more : List Side) :
    keptTexts keep pieces (sides ++ more) = keptTexts keep pieces sides := by
  induction pieces generalizing sides with
  | nil => rfl
  | cons piece pieces ih =>
    cases piece with
    | marker found => exact ih h
    | text content =>
      cases sides with
      | nil => cases h
      | cons side sides =>
        have hrest := ih (Nat.succ.inj h)
        simp only [List.cons_append, keptTexts, List.tail_cons, hrest]
        rfl

lemma keptEntries_cons_append (keep : Side) {x : NodeId} {text : String} {sides : List Side}
    (h : sides.length = (Piece.texts (Piece.ofText text.toList)).length)
    (texts : List (NodeId × String)) (more : List Side) :
    keptEntries keep ((x, text) :: texts) (sides ++ more) =
      joinKept (x, keptTexts keep (Piece.ofText text.toList) sides) ::
        keptEntries keep texts more := by
  rw [keptEntries, keptNodes, keptTexts_append keep h, ← h, List.drop_left]
  rfl

/-- What is kept for the same sides matches if the matching is strict. -/
lemma Matched.kept {T : NodeId → NodeId → Prop} {loose : NodeId → Prop} {strict : Prop}
    {texts texts' : List (NodeId × String)} (h : Matched T loose strict texts texts')
    (hstrict : strict) (keep : Side) (sides : List Side) :
    Matched T loose strict (keptEntries keep texts sides) (keptEntries keep texts' sides) := by
  induction h generalizing sides with
  | nil => exact .nil
  | same related _ ih => exact .same related (ih _)
  | both related isLoose unmarked unmarked' _ ih =>
    rw [keptEntries_cons_of_unmarked keep unmarked, keptEntries_cons_of_unmarked keep unmarked']
    exact .both related isLoose (occursIn_ite unmarked _) (occursIn_ite unmarked' _) (ih _)
  | left lax => exact absurd hstrict lax
  | right lax => exact absurd hstrict lax

/-! ## Parallel fields -/

/-- What is known of a field apart from its runs. -/
def IfSpan.heading (field : IfSpan) : Condition × Nat × Nat :=
  (field.condition, field.first, field.next)

section

variable (T : NodeId → NodeId → Prop) (M : MarkerRun → MarkerRun → Prop) (context : DataContext)

/-- The same edit at related runs. -/
inductive FieldEdit.Parallel : FieldEdit → FieldEdit → Prop
  | remove {run run' : NodeId} (related : T run run') :
    FieldEdit.Parallel (.remove run) (.remove run')
  | clean {keep : Side} {marker marker' : MarkerRun} (related : M marker marker') :
    FieldEdit.Parallel (.clean keep marker) (.clean keep marker')

lemma FieldEdit.Parallel.imp {T : NodeId → NodeId → Prop} {M M' : MarkerRun → MarkerRun → Prop}
    {edit edit' : FieldEdit} (h : FieldEdit.Parallel T M edit edit')
    (himp : ∀ marker marker', M marker marker' → M' marker marker') :
    FieldEdit.Parallel T M' edit edit' := by
  cases h with
  | remove related => exact .remove related
  | clean related => exact .clean (himp _ _ related)

/-- Branches at related runs, the fields inside of which are applied in the same way. -/
structure ParallelEntries (entries entries' : List BranchEntry) : Prop where
  runs : List.Forall₂ T (entriesRuns entries) (entriesRuns entries')
  edits : List.Forall₂ (FieldEdit.Parallel T M) (entriesEdits context entries)
    (entriesEdits context entries')
  applied_eq : (entriesApplied context entries').map IfSpan.heading =
    (entriesApplied context entries).map IfSpan.heading

/-- Fields at related runs that are applied in the same way. -/
structure ParallelFields (field field' : IfSpan) : Prop where
  next_eq : field'.next = field.next
  runs : List.Forall₂ T field.runs field'.runs
  edits : List.Forall₂ (FieldEdit.Parallel T M) (field.edits context) (field'.edits context)
  applied_eq : (field'.applied context).map IfSpan.heading =
    (field.applied context).map IfSpan.heading

/-- Contents at the same point of a field, with parallel branches. -/
structure ParallelContents (content content' : IfContent) : Prop where
  course : content.SameCourse content'
  ifTrue : ParallelEntries T M context content.ifTrue content'.ifTrue
  ifFalse : ParallelEntries T M context content.ifFalse content'.ifFalse
  markerRuns : List.Forall₂ M content.markerRuns content'.markerRuns

end

lemma entriesEdits_append (context : DataContext) (entries entries' : List BranchEntry) :
    entriesEdits context (entries ++ entries') =
      entriesEdits context entries ++ entriesEdits context entries' := by
  induction entries with
  | nil => rfl
  | cons entry entries ih => simp only [List.cons_append, entriesEdits, ih, List.append_assoc]

lemma entriesApplied_append (context : DataContext) (entries entries' : List BranchEntry) :
    entriesApplied context (entries ++ entries') =
      entriesApplied context entries ++ entriesApplied context entries' := by
  induction entries with
  | nil => rfl
  | cons entry entries ih => simp only [List.cons_append, entriesApplied, ih, List.append_assoc]

variable {T : NodeId → NodeId → Prop} {M : MarkerRun → MarkerRun → Prop} {context : DataContext}

namespace ParallelEntries

variable {entries entries' more more' : List BranchEntry}

lemma nil : ParallelEntries T M context [] [] :=
  ⟨.nil, .nil, rfl⟩

lemma append (h : ParallelEntries T M context entries entries')
    (hmore : ParallelEntries T M context more more') :
    ParallelEntries T M context (entries ++ more) (entries' ++ more') := by
  constructor
  · rw [entriesRuns_append, entriesRuns_append]
    exact List.rel_append h.runs hmore.runs
  · rw [entriesEdits_append, entriesEdits_append]
    exact List.rel_append h.edits hmore.edits
  · rw [entriesApplied_append, entriesApplied_append, List.map_append, List.map_append,
      h.applied_eq, hmore.applied_eq]

/-- Two runs without fields, each with or without text. -/
lemma of_runs {run run' : NodeId} {entry entry' : BranchEntry} (h : T run run')
    (hentry : entry = .run run ∨ ∃ text, entry = .text run text)
    (hentry' : entry' = .run run' ∨ ∃ text, entry' = .text run' text) :
    ParallelEntries T M context [entry] [entry'] := by
  rcases hentry with rfl | ⟨text, rfl⟩ <;> rcases hentry' with rfl | ⟨text', rfl⟩ <;>
    exact ⟨.cons h .nil, .nil, rfl⟩

lemma of_fields {field field' : IfSpan} (h : ParallelFields T M context field field') :
    ParallelEntries T M context [.nested field] [.nested field'] := by
  constructor
  · simpa [entriesRuns, BranchEntry.runs] using h.runs
  · simpa [entriesEdits, BranchEntry.edits] using h.edits
  · simpa [entriesApplied, BranchEntry.applied] using h.applied_eq

/-- A text that shares a run with a marker is not edited on its own. -/
lemma fragment_left (h : ParallelEntries T M context entries entries') (text : String) :
    ParallelEntries T M context (entries ++ [.fragment text]) entries' := by
  have hmore : ParallelEntries T M context [.fragment text] [] := ⟨.nil, .nil, rfl⟩
  simpa using h.append hmore

lemma fragment_right (h : ParallelEntries T M context entries entries') (text : String) :
    ParallelEntries T M context entries (entries' ++ [.fragment text]) := by
  have hmore : ParallelEntries T M context [] [.fragment text] := ⟨.nil, .nil, rfl⟩
  simpa using h.append hmore

end ParallelEntries

namespace ParallelContents

open IfContent

variable {content content' : IfContent} {options options' : Options}

lemma start : ParallelContents T M context {} {} :=
  ⟨.refl _, .nil, .nil, .nil⟩

lemma side_eq (h : ParallelContents T M context content content') :
    content'.side = content.side := by
  rw [side, side, h.course.isClosed_eq, h.course.inTrue_eq]

lemma add (h : ParallelContents T M context content content') {entry entry' : BranchEntry}
    (hentry : ParallelEntries T M context [entry] [entry']) :
    ParallelContents T M context (content.add entry) (content'.add entry') := by
  have hcourse := ((sameCourse_add content entry).symm.trans h.course).trans
    (sameCourse_add content' entry')
  refine ⟨hcourse, ?_, ?_, ?_⟩ <;> unfold IfContent.add <;> rw [h.course.inTrue_eq] <;> split
  · exact h.ifTrue.append hentry
  · exact h.ifTrue
  · exact h.ifFalse
  · exact h.ifFalse.append hentry
  · exact h.markerRuns
  · exact h.markerRuns

lemma addRun (h : ParallelContents T M context content content') {run run' : NodeId}
    (hrun : T run run') (text text' : String) :
    ParallelContents T M context (content.addRun options run text)
      (content'.addRun options' run' text') := by
  have hentry : ∀ (content : IfContent) (options : Options) (run : NodeId) (text : String),
      ∃ entry, content.addRun options run text = content.add entry ∧
        (entry = .run run ∨ ∃ text, entry = .text run text) := by
    intro content options run text
    unfold IfContent.addRun
    split
    · exact ⟨_, rfl, .inl rfl⟩
    · exact ⟨_, rfl, .inr ⟨_, rfl⟩⟩
  obtain ⟨entry, hadd, hkind⟩ := hentry content options run text
  obtain ⟨entry', hadd', hkind'⟩ := hentry content' options' run' text'
  rw [hadd, hadd']
  exact h.add (.of_runs hrun hkind hkind')

lemma addFragment_left (h : ParallelContents T M context content content') (options : Options)
    (text : List Char) :
    ParallelContents T M context (content.addFragment options text) content' := by
  unfold addFragment
  split
  · exact h
  · refine ⟨(sameCourse_add content _).symm.trans h.course, ?_, ?_, ?_⟩ <;>
      unfold IfContent.add <;> split
    · exact h.ifTrue.fragment_left _
    · exact h.ifTrue
    · exact h.ifFalse
    · exact h.ifFalse.fragment_left _
    · exact h.markerRuns
    · exact h.markerRuns

lemma addFragment_right (h : ParallelContents T M context content content') (options : Options)
    (text : List Char) :
    ParallelContents T M context content (content'.addFragment options text) := by
  unfold addFragment
  split
  · exact h
  · refine ⟨h.course.trans (sameCourse_add content' _), ?_, ?_, ?_⟩ <;>
      unfold IfContent.add <;> split
    · exact h.ifTrue.fragment_right _
    · exact h.ifTrue
    · exact h.ifFalse
    · exact h.ifFalse.fragment_right _
    · exact h.markerRuns
    · exact h.markerRuns

lemma addMarker? (h : ParallelContents T M context content content')
    (hpolicy : options'.elsePolicy = options.elsePolicy) (marker : Marker) :
    Option.Rel (ParallelContents T M context) (content.addMarker? options marker)
      (content'.addMarker? options' marker) := by
  unfold IfContent.addMarker?
  rw [h.course.isClosed_eq, h.course.seenElse_eq, h.course.inTrue_eq, hpolicy]
  split
  · exact .some h
  · split
    · exact .some ⟨⟨rfl, rfl, rfl⟩, h.ifTrue, h.ifFalse, h.markerRuns⟩
    · split
      · exact .none
      · exact .some ⟨⟨rfl, rfl, rfl⟩, h.ifTrue, h.ifFalse, h.markerRuns⟩
    · exact .some ⟨⟨rfl, rfl, rfl⟩, h.ifTrue, h.ifFalse, h.markerRuns⟩

/-- The same pieces are on the same sides. -/
lemma addPieces? (h : ParallelContents T M context content content')
    (hpolicy : options'.elsePolicy = options.elsePolicy) (pieces : List Piece) :
    Option.Rel (fun read read' => ParallelContents T M context read.2 read'.2 ∧
        read'.1 = read.1 ∧ read.1.length = (Piece.texts pieces).length)
      (addPieces? options content pieces) (addPieces? options' content' pieces) := by
  induction pieces generalizing content content' with
  | nil => exact .some ⟨h, rfl, rfl⟩
  | cons piece pieces ih =>
    cases piece with
    | text text =>
      have hfragment := (h.addFragment_left options text).addFragment_right options' text
      rcases rel_iff.1 (ih hfragment) with
        ⟨hnone, hnone'⟩ | ⟨read, read', hread, hread', hafter, hsides, hlength⟩
      · rw [IfContent.addPieces?, IfContent.addPieces?, hnone, hnone']
        exact .none
      · rw [IfContent.addPieces?, IfContent.addPieces?, hread, hread']
        refine .some ⟨hafter, ?_, ?_⟩
        · simp only [h.side_eq, hsides]
        · simp only [List.length_cons, hlength, Piece.texts_cons_text]
    | marker marker =>
      rw [IfContent.addPieces?, IfContent.addPieces?]
      rcases rel_iff.1 (h.addMarker? hpolicy marker) with
        ⟨hnone, hnone'⟩ | ⟨after, after', hread, hread', hafter⟩
      · rw [hnone, hnone']
        exact .none
      · rw [hread, hread']
        exact ih hafter

end ParallelContents

/-- Fields with parallel contents are parallel. -/
lemma ParallelContents.span {content content' : IfContent}
    (h : ParallelContents T M context content content')
    (hM : ∀ marker marker', M marker marker' → T marker.run marker'.run) {runs runs' : List NodeId}
    (hruns : List.Forall₂ T runs runs') (index : Nat) (header : Document.IfHeader) (next : Nat) :
    ParallelFields T M context (Document.spanOf runs index header content next)
      (Document.spanOf runs' index header content' next) := by
  set field := Document.spanOf runs index header content next
  set field' := Document.spanOf runs' index header content' next
  have hbranches : ParallelEntries T M context (field.winning context) (field'.winning context) ∧
      ParallelEntries T M context (field.losing context) (field'.losing context) := by
    unfold IfSpan.winning IfSpan.losing
    show ParallelEntries T M context (if header.condition.holds context then _ else _)
        (if header.condition.holds context then _ else _) ∧
      ParallelEntries T M context (if header.condition.holds context then _ else _)
        (if header.condition.holds context then _ else _)
    split
    · exact ⟨h.ifTrue, h.ifFalse⟩
    · exact ⟨h.ifFalse, h.ifTrue⟩
  constructor
  · rfl
  · have hcode : List.Forall₂ T field.codeRuns field'.codeRuns :=
      List.forall₂_take _ (List.forall₂_drop _ hruns)
    have hmarkers : List.Forall₂ T (content.markerRuns.map MarkerRun.run)
        (content'.markerRuns.map MarkerRun.run) :=
      List.forall₂_map_left_iff.2 (List.forall₂_map_right_iff.2 (h.markerRuns.imp hM))
    exact List.rel_append (List.rel_append hcode (List.rel_append h.ifTrue.runs h.ifFalse.runs))
      hmarkers
  · rw [IfSpan.edits_eq, IfSpan.edits_eq]
    refine List.rel_append ?_ (List.rel_append hbranches.1.edits ?_)
    · exact List.forall₂_map_left_iff.2 (List.forall₂_map_right_iff.2
        (hbranches.2.runs.imp fun _ _ hrun => .remove hrun))
    · exact List.forall₂_map_left_iff.2 (List.forall₂_map_right_iff.2
        (h.markerRuns.imp fun _ _ hmarker => .clean hmarker))
  · rw [IfSpan.applied_eq, IfSpan.applied_eq, List.map_cons, List.map_cons, hbranches.1.applied_eq]
    rfl

/-! ## Runs with markers -/

namespace IfContent

lemma addPieces?_append (options : Options) (content : IfContent) (pieces more : List Piece) :
    addPieces? options content (pieces ++ more) =
      (addPieces? options content pieces).bind fun read =>
        (addPieces? options read.2 more).map fun read' => (read.1 ++ read'.1, read'.2) := by
  induction pieces generalizing content with
  | nil => simp [addPieces?]
  | cons piece pieces ih =>
    cases piece with
    | text text =>
      rw [List.cons_append, addPieces?, addPieces?, ih]
      cases addPieces? options (content.addFragment options text) pieces with
      | none => rfl
      | some read =>
        simp only [Option.bind_some, Option.map_some]
        cases addPieces? options read.2 more <;> rfl
    | marker marker =>
      rw [List.cons_append, addPieces?, addPieces?]
      cases content.addMarker? options marker with
      | none => rfl
      | some after => exact ih after

end IfContent

section

variable {loose : NodeId → Prop} {strict : Prop} {texts texts' : List (NodeId × String)}
  {content content' : IfContent} {options options' : Options}

/-- The pieces of some texts. -/
def piecesOf (texts : List (NodeId × String)) : List Piece :=
  texts.flatMap fun entry => Piece.ofText entry.2.toList

lemma piecesOf_cons_of_unmarked {x : NodeId} {text : String}
    (h : Marker.occursIn text.toList = false) (texts : List (NodeId × String)) :
    piecesOf ((x, text) :: texts) = .text text.toList :: piecesOf texts := by
  rw [piecesOf, List.flatMap_cons, Piece.ofText_of_cut?_none (Marker.occursIn_eq_false_iff.1 h)]
  rfl

/-- Contents stay parallel when matching texts are read, and what is kept of the texts for one side
matches again. -/
theorem Matched.addPieces? (h : Matched T loose strict texts texts')
    (hpolicy : options'.elsePolicy = options.elsePolicy)
    (hcontent : ParallelContents T M context content content') :
    Option.Rel (fun read read' => ParallelContents T M context read.2 read'.2 ∧
        (∀ keep, Matched T loose strict (keptEntries keep texts read.1)
          (keptEntries keep texts' read'.1)) ∧ (strict → read'.1 = read.1))
      (IfContent.addPieces? options content (piecesOf texts))
      (IfContent.addPieces? options' content' (piecesOf texts')) := by
  induction h generalizing content content' with
  | nil => exact .some ⟨hcontent, fun _ => .nil, fun _ => rfl⟩
  | @same x x' text texts texts' related _ ih =>
    have hcons : ∀ (x : NodeId) (texts : List (NodeId × String)),
        piecesOf ((x, text) :: texts) = Piece.ofText text.toList ++ piecesOf texts :=
      fun _ _ => List.flatMap_cons
    rw [hcons, hcons, IfContent.addPieces?_append, IfContent.addPieces?_append]
    rcases rel_iff.1 (hcontent.addPieces? hpolicy (Piece.ofText text.toList)) with
      ⟨hnone, hnone'⟩ | ⟨⟨sides, after⟩, ⟨sides', after'⟩, hread, hread', hafter, hsides, hlength⟩
    · rw [hnone, hnone']
      exact .none
    · obtain rfl : sides' = sides := hsides
      rw [hread, hread', Option.bind_some, Option.bind_some]
      rcases rel_iff.1 (ih hafter) with
        ⟨hnone, hnone'⟩ | ⟨read, read', hrest, hrest', hlast, hkept, hstrict⟩
      · rw [hnone, hnone']
        exact .none
      · rw [hrest, hrest']
        refine .some ⟨hlast, fun keep => ?_, fun hs => congrArg (sides' ++ ·) (hstrict hs)⟩
        rw [keptEntries_cons_append keep hlength, keptEntries_cons_append keep hlength]
        exact .same related (hkept keep)
  | @both x x' text text' texts texts' related isLoose unmarked unmarked' _ ih =>
    have hfragment :=
      (hcontent.addFragment_left options text.toList).addFragment_right options' text'.toList
    rw [piecesOf_cons_of_unmarked unmarked, piecesOf_cons_of_unmarked unmarked',
      IfContent.addPieces?, IfContent.addPieces?]
    rcases rel_iff.1 (ih hfragment) with
      ⟨hnone, hnone'⟩ | ⟨read, read', hread, hread', hafter, hkept, hstrict⟩
    · rw [hnone, hnone']
      exact .none
    · rw [hread, hread']
      refine .some ⟨hafter, fun keep => ?_, fun hs => ?_⟩
      · rw [keptEntries_cons_of_unmarked keep unmarked, keptEntries_cons_of_unmarked keep unmarked',
          hcontent.side_eq]
        exact .both related isLoose (occursIn_ite unmarked _) (occursIn_ite unmarked' _) (hkept keep)
      · show content'.side :: read'.1 = content.side :: read.1
        rw [hcontent.side_eq, hstrict hs]
  | @left x text texts texts' lax alone unmarked _ ih =>
    rw [piecesOf_cons_of_unmarked unmarked, IfContent.addPieces?]
    rcases rel_iff.1 (ih (hcontent.addFragment_left options text.toList)) with
      ⟨hnone, hnone'⟩ | ⟨read, read', hread, hread', hafter, hkept, -⟩
    · rw [hnone, hnone']
      exact .none
    · rw [hread, hread']
      refine .some ⟨hafter, fun keep => ?_, fun hs => absurd hs lax⟩
      rw [keptEntries_cons_of_unmarked keep unmarked]
      exact .left lax alone (occursIn_ite unmarked _) (hkept keep)
  | @right x' text' texts texts' lax alone unmarked _ ih =>
    rw [piecesOf_cons_of_unmarked unmarked, IfContent.addPieces?]
    rcases rel_iff.1 (ih (hcontent.addFragment_right options' text'.toList)) with
      ⟨hnone, hnone'⟩ | ⟨read, read', hread, hread', hafter, hkept, -⟩
    · rw [hnone, hnone']
      exact .none
    · rw [hread, hread']
      refine .some ⟨hafter, fun keep => ?_, fun hs => absurd hs lax⟩
      rw [keptEntries_cons_of_unmarked keep unmarked]
      exact .right lax alone (occursIn_ite unmarked _) (hkept keep)

/-- Contents stay parallel when runs with matching texts are read. -/
lemma Matched.addMarkerRun? (h : Matched T loose strict texts texts')
    (hpolicy : options'.elsePolicy = options.elsePolicy)
    (hcontent : ParallelContents T M context content content') {run run' : NodeId}
    (hM : ∀ sides sides',
      (∀ keep, Matched T loose strict (keptEntries keep texts sides)
        (keptEntries keep texts' sides')) → (strict → sides' = sides) → M ⟨run, sides⟩ ⟨run', sides'⟩) :
    Option.Rel (ParallelContents T M context)
      (content.addMarkerRun? options run (texts.map Prod.snd))
      (content'.addMarkerRun? options' run' (texts'.map Prod.snd)) := by
  have hpieces : ∀ texts : List (NodeId × String),
      (texts.map Prod.snd).flatMap (fun text => Piece.ofText text.toList) = piecesOf texts :=
    fun _ => List.flatMap_map ..
  unfold IfContent.addMarkerRun?
  rw [hpieces, hpieces]
  rcases rel_iff.1 (h.addPieces? hpolicy hcontent) with
    ⟨hnone, hnone'⟩ | ⟨read, read', hread, hread', hafter, hkept, hsides⟩
  · rw [hnone, hnone']
    exact .none
  · rw [hread, hread']
    refine .some ⟨?_, hafter.ifTrue, hafter.ifFalse, ?_⟩
    · exact ⟨hafter.course.inTrue_eq, hafter.course.seenElse_eq, hafter.course.isClosed_eq⟩
    · exact List.rel_append hafter.markerRuns (.cons (hM _ _ hkept hsides) .nil)

end

namespace Document

variable {d d' : Document} {veiled loose : NodeId → Prop} {strict : Prop}
  {options options' : Options}

/-- Runs with markers at related nodes, of which matching texts are kept. -/
structure MatchedMarkers (d d' : Document) (T : NodeId → NodeId → Prop) (loose : NodeId → Prop)
    (strict : Prop) (marker marker' : MarkerRun) : Prop where
  related : T marker.run marker'.run
  kept : ∀ keep, Matched T loose strict (keptEntries keep (d.runTexts marker.run) marker.sides)
    (keptEntries keep (d'.runTexts marker'.run) marker'.sides)
  sides_eq : strict → marker'.sides = marker.sides

/-- The texts among some nodes. -/
def textEntries (d : Document) (ids : List NodeId) : List (NodeId × String) :=
  ids.filterMap fun id =>
    match d.kind id with
    | .text value => some (id, value)
    | _ => none

/-- Texts without a marker may come before matching texts, at nodes that are related to none. -/
lemma left_of_unmarked (hlax : ¬ strict) {ids : List NodeId}
    (hids : ∀ child ∈ ids, d.Unmarked child ∧ ∀ y, ¬ T child y)
    {texts' : List (NodeId × String)} (hrest : Matched T loose strict [] texts') :
    Matched T loose strict (d.textEntries ids) texts' := by
  induction ids with
  | nil => exact hrest
  | cons child ids ih =>
    obtain ⟨⟨⟨text, htext, hunmarked⟩, halone⟩, htail⟩ := List.forall_mem_cons.1 hids
    rw [textEntries, List.filterMap_cons, htext]
    exact .left hlax halone hunmarked (ih htail)

lemma right_of_unmarked (hlax : ¬ strict) {ids : List NodeId}
    (hids : ∀ child ∈ ids, d.Unmarked child ∧ ∀ y, ¬ T y child) :
    Matched T loose strict [] (d.textEntries ids) := by
  induction ids with
  | nil => exact .nil
  | cons child ids ih =>
    obtain ⟨⟨⟨text, htext, hunmarked⟩, halone⟩, htail⟩ := List.forall_mem_cons.1 hids
    rw [textEntries, List.filterMap_cons, htext]
    exact .right hlax halone hunmarked (ih htail)

namespace Mirrors

/-! ## Reading -/

/-- The texts in related text elements match. -/
lemma matched_children (h : Mirrors d d' T veiled strict) {x x' : NodeId} (hx : T x x') :
    Matched T (d.Loose veiled) strict (d.textEntries (d.children x))
      (d'.textEntries (d'.children x')) := by
  by_cases hplain : veiled x → strict
  · have hchildren := h.children hx hplain
    generalize d.children x = ids at hchildren
    generalize d'.children x' = ids' at hchildren
    induction hchildren with
    | nil => exact .nil
    | @cons child child' ids ids' hchild _ ih =>
      rw [textEntries, textEntries, List.filterMap_cons, List.filterMap_cons]
      rcases h.kind hchild with
        hkind | ⟨hloose, ⟨text, htext, hunmarked⟩, ⟨text', htext', hunmarked'⟩⟩
      · rw [hkind]
        cases d.kind child with
        | text value => exact .same hchild ih
        | _ => exact ih
      · rw [htext, htext']
        exact .both hchild hloose hunmarked hunmarked' ih
  · obtain ⟨hveiled, hlax⟩ := Classical.not_imp.1 hplain
    obtain ⟨hholds, hholds'⟩ := h.holdsUnmarked hx hveiled
    have halone : ∀ child ∈ d.children x, ∀ y, ¬ T child y := fun child hchild y hy =>
      hlax (h.strict_of_veiled hy (h.wellFormed.parent_of_mem hchild) hveiled)
    have halone' : ∀ child ∈ d'.children x', ∀ y, ¬ T y child := by
      intro child hchild y hy
      obtain ⟨top, htop, hrel⟩ := h.exists_parent' hy (h.wellFormed'.parent_of_mem hchild)
      obtain rfl := h.biUnique.1 hx hrel
      exact hlax (h.strict_of_veiled hy htop hveiled)
    refine left_of_unmarked hlax (fun child hchild => ⟨(hholds child hchild).1,
      halone child hchild⟩) (right_of_unmarked hlax fun child hchild =>
        ⟨(hholds' child hchild).1, halone' child hchild⟩)

/-- The texts of related runs match. -/
theorem matched (h : Mirrors d d' T veiled strict) {run run' : NodeId} (hrun : T run run') :
    Matched T (d.Loose veiled) strict (d.runTexts run) (d'.runTexts run') := by
  have htexts : ∀ (d : Document) (run : NodeId),
      d.runTexts run = (d.wordDescendants run "t").flatMap fun x => d.textEntries (d.children x) :=
    fun _ _ => List.filterMap_flatMap
  rw [htexts, htexts]
  have hholders := h.alike.wordDescendants hrun "t"
  generalize d.wordDescendants run "t" = holders at hholders
  generalize d'.wordDescendants run' "t" = holders' at hholders
  induction hholders with
  | nil => exact .nil
  | cons hholder _ ih => exact (h.matched_children hholder).append ih

lemma hasMarker_eq (h : Mirrors d d' T veiled strict) {run run' : NodeId} (hrun : T run run') :
    d'.hasMarker run' = d.hasMarker run :=
  (h.matched hrun).any_occursIn

/-- Fields are read alike from documents that mirror each other. -/
theorem accord (h : Mirrors d d' T veiled strict)
    (hpolicy : options'.elsePolicy = options.elsePolicy) (context : DataContext) :
    Accord d d' options options' d.runs d'.runs T
      (ParallelContents T (MatchedMarkers d d' T (d.Loose veiled) strict) context)
      (ParallelFields T (MatchedMarkers d d' T (d.Loose veiled) strict) context) where
  runs_rel := h.runs
  opensIf_eq := h.alike.opensIf_eq h.runs
  readHeader_eq _ := h.alike.readHeader_eq h.runs fun hx _ => h.enclosingRun? hx
  hasMarker_eq _ hrun := h.hasMarker_eq hrun
  start := .start
  isClosed_eq hcontent := hcontent.course.isClosed_eq
  next_eq hfield := hfield.next_eq
  nested hcontent hfield := hcontent.add (.of_fields hfield)
  markers _ hrun _ hcontent :=
    (h.matched hrun).addMarkerRun? hpolicy hcontent fun _ _ hkept hsides => ⟨hrun, hkept, hsides⟩
  plain _ hrun _ hcontent := hcontent.addRun hrun _ _
  span index header next _ _ hcontent :=
    hcontent.span (fun _ _ hmarker => hmarker.related) h.runs index header next

/-- The same fields are found in documents that mirror each other, with the same problems. -/
theorem ifSpans (h : Mirrors d d' T veiled strict)
    (hpolicy : options'.elsePolicy = options.elsePolicy) (context : DataContext) :
    List.Forall₂ (ParallelFields T (MatchedMarkers d d' T (d.Loose veiled) strict) context)
        (d.ifSpans options).1 (d'.ifSpans options').1 ∧
      (d'.ifSpans options').2 = (d.ifSpans options).2 := by
  rw [Document.ifSpans, Document.ifSpans, ← h.runs.length_eq]
  exact (h.accord hpolicy context).readIfsFrom _ 0 []

end Mirrors

end Document

end WordFields
