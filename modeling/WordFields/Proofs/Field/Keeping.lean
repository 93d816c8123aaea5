import WordFields.Proofs.Field.Cleaning

/-!
# What a field keeps in its runs with markers

While a field is read the side of every text in its runs with markers is recorded; when the field is
applied these runs are cleaned, and the recorded sides are used up in the order in which the texts
are met again.  Between the two, runs have been taken out and other fields have been applied.

`Side.after` says which side text is on after a marker, given the side before it, so the sides of
all texts of a field follow from its markers alone, from the first of its runs to the last
(`Piece.sided`).  The recorded sides are these sides (`readIf_sides`).  Where no run is inside
another, a run still has the texts that it was read with when it is cleaned, so each of its text
nodes is left with the texts of the branch that is kept and those behind the closing marker
(`applyIf_keeps`).
-/

namespace WordFields

/-! ## Sides -/

namespace Side

/-- The other branch. -/
def other : Side → Side
  | .ifTrue => .ifFalse
  | .ifFalse => .ifTrue
  | .outside => .outside

/-- The side of text behind a marker, given the side of the text before it. -/
def after (policy : ElsePolicy) : Side → Marker → Side
  | .outside, _ => .outside
  | _, .endMarker => .outside
  | side, .elseMarker =>
    match policy with
    | .reject => .ifFalse
    | .toggle => side.other

/-- The side of text behind some pieces. -/
def afterPieces (policy : ElsePolicy) : Side → List Piece → Side
  | side, [] => side
  | side, .text _ :: pieces => afterPieces policy side pieces
  | side, .marker marker :: pieces => afterPieces policy (side.after policy marker) pieces

lemma afterPieces_append (policy : ElsePolicy) (side : Side) (pieces pieces' : List Piece) :
    side.afterPieces policy (pieces ++ pieces') =
      (side.afterPieces policy pieces).afterPieces policy pieces' := by
  induction pieces generalizing side with
  | nil => rfl
  | cons piece pieces ih =>
    cases piece with
    | text content => exact ih side
    | marker found => exact ih (side.after policy found)

end Side

/-- The texts among some pieces, each with the side that it is on. -/
def Piece.sided (policy : ElsePolicy) : Side → List Piece → List (Side × List Char)
  | _, [] => []
  | side, .text content :: pieces => (side, content) :: sided policy side pieces
  | side, .marker found :: pieces => sided policy (side.after policy found) pieces

lemma Piece.sided_append (policy : ElsePolicy) (side : Side) (pieces pieces' : List Piece) :
    sided policy side (pieces ++ pieces') =
      sided policy side pieces ++ sided policy (side.afterPieces policy pieces) pieces' := by
  induction pieces generalizing side with
  | nil => rfl
  | cons piece pieces ih =>
    cases piece with
    | text content => exact congrArg ((side, content) :: ·) (ih side)
    | marker found => exact ih (side.after policy found)

lemma Piece.length_sided (policy : ElsePolicy) (side : Side) (pieces : List Piece) :
    (sided policy side pieces).length = (texts pieces).length := by
  induction pieces generalizing side with
  | nil => rfl
  | cons piece pieces ih =>
    cases piece with
    | text content => exact congrArg (· + 1) (ih side)
    | marker found => exact ih (side.after policy found)

/-! ## What is kept of a text -/

/-- What is kept of a text that begins on a given side: its pieces that are on the side that wins
or behind the closing marker. -/
def keptText (policy : ElsePolicy) (winner side : Side) (text : String) : String :=
  String.ofList (((Piece.sided policy side (Piece.ofText text.toList)).filter fun piece =>
    piece.1 = winner ∨ piece.1 = .outside).flatMap Prod.snd)

/-- What is kept of the text nodes of a run. -/
def keptOf (policy : ElsePolicy) (winner : Side) :
    Side → List (NodeId × String) → List (NodeId × String)
  | _, [] => []
  | side, (id, text) :: texts =>
    (id, keptText policy winner side text) ::
      keptOf policy winner (side.afterPieces policy (Piece.ofText text.toList)) texts

/-- The sides are used up one by one. -/
lemma keptTexts_sided (policy : ElsePolicy) (winner side : Side) (pieces : List Piece)
    (sides : List Side) :
    keptTexts winner pieces ((Piece.sided policy side pieces).map Prod.fst ++ sides) =
      ((Piece.sided policy side pieces).filter fun piece =>
        piece.1 = winner ∨ piece.1 = .outside).map Prod.snd := by
  induction pieces generalizing side with
  | nil => rfl
  | cons piece pieces ih =>
    cases piece with
    | text content =>
      rw [Piece.sided, List.map_cons, List.cons_append, keptTexts, List.headD_cons, List.tail_cons,
        List.filter_cons]
      by_cases hkept : side = winner ∨ side = .outside
      · rw [if_pos hkept, if_pos (decide_eq_true hkept), List.map_cons, ih]
      · rw [if_neg hkept, if_neg (by simpa using hkept), ih]
    | marker found => exact ih (side.after policy found)

/-- Sides that are those of the texts between the markers decide what is kept. -/
lemma map_joinKept_keptNodes (policy : ElsePolicy) (winner side : Side)
    (texts : List (NodeId × String)) :
    (keptNodes winner texts ((Piece.sided policy side (texts.flatMap fun entry =>
      Piece.ofText entry.2.toList)).map Prod.fst)).map joinKept =
        keptOf policy winner side texts := by
  induction texts generalizing side with
  | nil => rfl
  | cons entry texts ih =>
    obtain ⟨id, text⟩ := entry
    have hlength : (Piece.texts (Piece.ofText text.toList)).length =
        ((Piece.sided policy side (Piece.ofText text.toList)).map Prod.fst).length := by
      rw [List.length_map, Piece.length_sided]
    rw [List.flatMap_cons, Piece.sided_append, List.map_append, keptNodes, keptTexts_sided, hlength,
      List.drop_left, List.map_cons, ih, keptOf, joinKept, keptText, List.flatMap_def]

/-! ## The sides that are recorded -/

namespace IfContent

variable {options : Options} {content after : IfContent}

lemma side_add (content : IfContent) (entry : BranchEntry) :
    (content.add entry).side = content.side := by
  unfold add
  split <;> rfl

lemma side_addRun (content : IfContent) (options : Options) (run : NodeId) (text : String) :
    (content.addRun options run text).side = content.side := by
  unfold addRun
  split <;> exact content.side_add _

lemma side_addFragment (content : IfContent) (options : Options) (text : List Char) :
    (content.addFragment options text).side = content.side := by
  unfold addFragment
  split
  · rfl
  · exact content.side_add _

lemma side_addMarker? {marker : Marker} (h : content.addMarker? options marker = some after) :
    after.side = content.side.after options.elsePolicy marker := by
  cases hclosed : content.isClosed with
  | true =>
    simp only [addMarker?, hclosed, if_true, Option.some.injEq] at h
    subst h
    simp only [side, hclosed, if_true, Side.after]
  | false =>
    have hside : content.side = Side.ofBranch content.inTrue := by simp [side, hclosed]
    rw [hside]
    cases marker with
    | endMarker =>
      simp only [addMarker?, hclosed, Bool.false_eq_true, if_false, Option.some.injEq] at h
      subst h
      cases content.inTrue <;> rfl
    | elseMarker =>
      cases hpolicy : options.elsePolicy with
      | reject =>
        simp only [addMarker?, hclosed, Bool.false_eq_true, if_false, hpolicy] at h
        split at h
        · cases h
        · cases h
          cases content.inTrue <;> simp [side, Side.after, Side.ofBranch]
      | toggle =>
        simp only [addMarker?, hclosed, Bool.false_eq_true, if_false, hpolicy,
          Option.some.injEq] at h
        subst h
        cases content.inTrue <;> simp [side, Side.after, Side.ofBranch, Side.other]

/-- The sides of the texts of a run are recorded, and what comes behind the run is on the side that
its markers lead to. -/
lemma sides_addPieces? {pieces : List Piece} {sides : List Side}
    (h : addPieces? options content pieces = some (sides, after)) :
    sides = (Piece.sided options.elsePolicy content.side pieces).map Prod.fst ∧
      after.side = content.side.afterPieces options.elsePolicy pieces := by
  induction pieces generalizing content sides with
  | nil =>
    cases h
    exact ⟨rfl, rfl⟩
  | cons piece pieces ih =>
    cases piece with
    | text text =>
      obtain ⟨⟨sides', read⟩, hread, heq⟩ := Option.map_eq_some_iff.1 h
      cases heq
      obtain ⟨hsides, hafter⟩ := ih hread
      rw [side_addFragment] at hsides hafter
      exact ⟨congrArg (content.side :: ·) hsides, hafter⟩
    | marker marker =>
      rw [addPieces?] at h
      split at h
      next read hmarker =>
        rw [Piece.sided, Side.afterPieces, ← side_addMarker? hmarker]
        exact ih h
      next => cases h

end IfContent

namespace Document

variable {d : Document} {options : Options} {runs : List NodeId} {context : DataContext}

/-- The pieces of a run with markers. -/
def runPieces (d : Document) (run : NodeId) : List Piece :=
  (d.runTexts run).flatMap fun entry => Piece.ofText entry.2.toList

/-- The side on which the first text of a run with markers is, given the runs with markers that the
field has before it. -/
def startSide (d : Document) (policy : ElsePolicy) (markers : List MarkerRun) : Side :=
  Side.ifTrue.afterPieces policy (markers.flatMap fun marker => d.runPieces marker.run)

/-- Whether the sides that are recorded in some runs with markers are those that their texts are
on. -/
def SidesRecorded (d : Document) (policy : ElsePolicy) (markers : List MarkerRun) : Prop :=
  ∀ front marker back, markers = front ++ marker :: back →
    marker.sides =
      (Piece.sided policy (d.startSide policy front) (d.runPieces marker.run)).map Prod.fst

lemma sidesRecorded_nil (d : Document) (policy : ElsePolicy) : d.SidesRecorded policy [] :=
  fun front marker back h => by simp at h

lemma SidesRecorded.append {policy : ElsePolicy} {markers : List MarkerRun} {marker : MarkerRun}
    (h : d.SidesRecorded policy markers) (hsides : marker.sides =
      (Piece.sided policy (d.startSide policy markers) (d.runPieces marker.run)).map Prod.fst) :
    d.SidesRecorded policy (markers ++ [marker]) := by
  intro front found back hsplit
  rcases List.eq_nil_or_concat back with rfl | ⟨back, last, rfl⟩
  · obtain ⟨rfl, hlast⟩ := List.append_inj' hsplit rfl
    obtain rfl := List.singleton_inj.1 hlast
    exact hsides
  · rw [List.concat_eq_append, ← List.cons_append, ← List.append_assoc] at hsplit
    exact h front found back (List.append_inj' hsplit rfl).1

/-- One step of reading content records the sides of its run. -/
lemma ContentStep.sidesRecorded {nested : Nat → Except IfProblem IfSpan} {index index' : Nat}
    {content content' : IfContent}
    (h : ContentStep d options runs nested index content index' content')
    (hside : content.side = d.startSide options.elsePolicy content.markerRuns)
    (hrecorded : d.SidesRecorded options.elsePolicy content.markerRuns) :
    content'.side = d.startSide options.elsePolicy content'.markerRuns ∧
      d.SidesRecorded options.elsePolicy content'.markerRuns := by
  cases h with
  | nested _ _ _ _ =>
    rw [IfContent.side_add, IfContent.markerRuns_add]
    exact ⟨hside, hrecorded⟩
  | @markers _ run _ _ _ _ reads =>
    obtain ⟨⟨sides, read⟩, hread, rfl⟩ := Option.map_eq_some_iff.1 reads
    obtain ⟨hsides, hafter⟩ := IfContent.sides_addPieces? hread
    have hpieces : ((d.runTexts run).map Prod.snd).flatMap (fun text => Piece.ofText text.toList) =
        d.runPieces run := by
      rw [runPieces, List.flatMap_map]
    rw [hpieces, hside] at hsides hafter
    have hmarkers := IfContent.markerRuns_addPieces? hread
    simp only [hmarkers]
    refine ⟨?_, hrecorded.append hsides⟩
    rw [startSide, List.flatMap_append, Side.afterPieces_append, List.flatMap_singleton]
    exact hafter
  | plain _ _ _ _ =>
    rw [IfContent.side_addRun, IfContent.markerRuns_addRun]
    exact ⟨hside, hrecorded⟩

lemma ContentRun.sidesRecorded {nested : Nat → Except IfProblem IfSpan} {index next : Nat}
    {content after : IfContent}
    (h : ContentRun d options runs nested index content next after)
    (hside : content.side = d.startSide options.elsePolicy content.markerRuns)
    (hrecorded : d.SidesRecorded options.elsePolicy content.markerRuns) :
    d.SidesRecorded options.elsePolicy after.markerRuns := by
  induction h with
  | closed _ => exact hrecorded
  | step first _ ih =>
    obtain ⟨hside', hrecorded'⟩ := first.sidesRecorded hside hrecorded
    exact ih hside' hrecorded'

/-- The sides that reading a field records are those that the markers of the field lead to. -/
theorem readIf_sides {index : Nat} {field : IfSpan}
    (h : d.readIf options runs index = .ok field) :
    d.SidesRecorded options.elsePolicy field.markerRuns := by
  obtain ⟨header, content, next, -, hrun, rfl⟩ := readIf_eq_ok_iff.1 h
  exact hrun.sidesRecorded rfl (d.sidesRecorded_nil _)

/-! ## Applying a field -/

lemma mem_entriesApplied {entries : List BranchEntry} {inner : IfSpan}
    (h : inner ∈ entriesApplied context entries) :
    ∃ field, .nested field ∈ entries ∧ inner ∈ field.applied context := by
  induction entries with
  | nil => cases h
  | cons entry rest ih =>
    rw [entriesApplied] at h
    rcases List.mem_append.1 h with hentry | hrest
    · cases entry with
      | nested field => exact ⟨field, List.mem_cons_self, hentry⟩
      | text _ _ => cases hentry
      | run _ => cases hentry
      | fragment _ => cases hentry
    · obtain ⟨field, hfield, hinner⟩ := ih hrest
      exact ⟨field, List.mem_cons_of_mem entry hfield, hinner⟩

/-- The fields that are applied with a field are read where they begin, like the field itself. -/
lemma exists_readIf_of_mem_applied {index : Nat} {field inner : IfSpan}
    (h : d.readIf options runs index = .ok field) (hinner : inner ∈ field.applied context) :
    ∃ index, d.readIf options runs index = .ok inner := by
  rw [IfSpan.applied_eq] at hinner
  rcases List.mem_cons.1 hinner with rfl | hdeeper
  · exact ⟨index, h⟩
  · obtain ⟨between, hbetween, hinner⟩ := mem_entriesApplied hdeeper
    have hentry : .nested between ∈ field.ifTrue ++ field.ifFalse := by
      rw [List.mem_append]
      rcases field.winning_eq_or context with heq | heq
      · exact .inl (heq ▸ hbetween)
      · exact .inr (heq ▸ hbetween)
    obtain ⟨-, -, hle, -, -, hnested, -⟩ := readIf_partition h
    obtain ⟨hlater, -, hreads⟩ := hnested between hentry
    have hprogress := readIf_progress hreads
    have hlength := readIf_next_le_length hreads
    exact exists_readIf_of_mem_applied hreads hinner
termination_by runs.length - index

lemma edits_sublist_ifEdits {field : IfSpan} (hfield : field ∈ (d.ifSpans options).1) :
    (field.edits context).Sublist (d.ifEdits context options) := by
  rw [ifEdits, List.flatMap_def]
  exact List.sublist_flatten_of_mem (List.mem_map_of_mem hfield)

/-- A run that is cleaned still has its texts, if no run is edited twice or is inside another one
that is edited. -/
lemma runTexts_edits_before (hd : d.WellFormed) {done rest : List FieldEdit} {winner : Side}
    {marker : MarkerRun}
    (hnodup : ((done ++ .clean winner marker :: rest).map FieldEdit.run).Nodup)
    (hapart : ∀ edit ∈ done, ¬ d.Below marker.run edit.run ∧ ¬ d.Below edit.run marker.run) :
    (done.foldl FieldEdit.apply d).runTexts marker.run = d.runTexts marker.run := by
  refine runTexts_edits_of_apart hd fun edit hedit => ⟨fun heq => ?_, hapart edit hedit⟩
  rw [List.map_append, List.map_cons, List.nodup_append'] at hnodup
  exact hnodup.2.2 (List.mem_map_of_mem hedit) (heq ▸ List.mem_cons_self)

/-- After a pass over a document in which no run is inside another, each text node of a run with
markers has what the field of the run keeps of its text. -/
theorem processIfFields_keeps (hd : d.WellFormed)
    (hflat : ∀ run ∈ d.runs, d.wordDescendants run "r" = []) {field inner : IfSpan}
    (hfield : field ∈ (d.ifSpans options).1) (hinner : inner ∈ field.applied context)
    {front back : List MarkerRun} {marker : MarkerRun}
    (hmarkers : inner.markerRuns = front ++ marker :: back) :
    (d.processIfFields context options).document.runTexts marker.run =
      keptOf options.elsePolicy (inner.side context) (d.startSide options.elsePolicy front)
        (d.runTexts marker.run) := by
  obtain ⟨index, hreads⟩ := exists_readIf_of_mem_applied (readIf_of_mem_ifSpans hfield) hinner
  have hmarker : marker ∈ inner.markerRuns := hmarkers ▸ by simp
  rw [runTexts_processIfFields hd hflat hfield hinner hmarker,
    readIf_sides hreads front marker back hmarkers]
  exact map_joinKept_keptNodes _ _ _ _

/-- What a field keeps, in a document in which no run is inside another.  Of a field that is applied
take any of its runs with markers.  The run is cleaned once, when it still has the texts that it was
read with, and the sides that are recorded for it are those of its texts, one by one, as the markers
of the field up to there say.  In the end each of its text nodes has what is kept of its text: the
pieces on the side that wins and those behind the closing marker. -/
theorem applyIf_keeps (hd : d.WellFormed) (hflat : ∀ run ∈ d.runs, d.wordDescendants run "r" = [])
    {field inner : IfSpan} (hfield : field ∈ (d.ifSpans options).1)
    (hinner : inner ∈ field.applied context) {front back : List MarkerRun} {marker : MarkerRun}
    (hmarkers : inner.markerRuns = front ++ marker :: back) :
    let start := d.startSide options.elsePolicy front
    (applyIf context d field).runTexts marker.run =
        keptOf options.elsePolicy (inner.side context) start (d.runTexts marker.run) ∧
      ∃ done rest : List FieldEdit, let now := done.foldl FieldEdit.apply d
        field.edits context = done ++ .clean (inner.side context) marker :: rest ∧
          applyIf context d field =
            rest.foldl FieldEdit.apply (now.cleanMarkerRun (inner.side context) marker) ∧
          now.runTexts marker.run = d.runTexts marker.run ∧
          marker.sides =
            (Piece.sided options.elsePolicy start (now.runPieces marker.run)).map Prod.fst := by
  intro start
  obtain ⟨index, hreads⟩ := exists_readIf_of_mem_applied (readIf_of_mem_ifSpans hfield) hinner
  have hsides : marker.sides =
      (Piece.sided options.elsePolicy start (d.runPieces marker.run)).map Prod.fst :=
    readIf_sides hreads front marker back hmarkers
  have hmarker : marker ∈ inner.markerRuns := hmarkers ▸ by simp
  have hclean := clean_mem_edits context hmarker field hinner
  have hsublist : (field.edits context).Sublist (d.ifEdits context options) :=
    edits_sublist_ifEdits hfield
  have hnodup : ((field.edits context).map FieldEdit.run).Nodup :=
    (hd.nodup_ifEdits context options).sublist (hsublist.map FieldEdit.run)
  have hapart : ∀ edit ∈ field.edits context, ∀ edit' ∈ field.edits context,
      ¬ d.Below edit.run edit'.run := fun edit hedit edit' hedit' =>
    hd.not_below_ifEdits hflat (hsublist.subset hedit) (hsublist.subset hedit')
  constructor
  · rw [applyIf_eq_edits, runTexts_edits hd hclean hnodup hapart, hsides]
    exact map_joinKept_keptNodes _ _ _ _
  · obtain ⟨done, rest, hsplit⟩ := List.append_of_mem hclean
    have hdone : ∀ edit ∈ done, edit ∈ field.edits context := by
      intro edit hedit
      rw [hsplit]
      exact List.mem_append_left _ hedit
    have hnow : (done.foldl FieldEdit.apply d).runTexts marker.run = d.runTexts marker.run :=
      runTexts_edits_before hd (hsplit ▸ hnodup) fun edit hedit =>
        ⟨hapart _ hclean _ (hdone edit hedit), hapart _ (hdone edit hedit) _ hclean⟩
    refine ⟨done, rest, hsplit, ?_, hnow, ?_⟩
    · rw [applyIf_eq_edits, hsplit, List.foldl_append, List.foldl_cons]
      rfl
    · rw [runPieces, hnow]
      exact hsides

/-! ## A page with many markers -/

/-- A run with several text elements. -/
def textsRun (texts : List String) : Tree :=
  .word "r" [] (texts.map fun text => .word "t" [] [.node (.text text) []])

/-- A page with a field that goes back to its true branch twice, with a field inside it. -/
def switchingPage : Document :=
  ofForest [.word "p" []
    ((Cell.field ⟨"a", "=", "1"⟩).contents.map RunContent.tree ++
      [textsRun ["one%else%two%else%three", "four%else%five"], textsRun ["lost"],
        textsRun ["%else%six"]] ++
      (Cell.field ⟨"b", "=", "1"⟩).contents.map RunContent.tree ++
      [textsRun ["x%else%y%end%z%end%"], textsRun ["seven%end%eight"]])]

/-- The outer field keeps its true branch, in which the inner field keeps its false one. -/
theorem applyIf_keeps_switching :
    let d := switchingPage
    let options : Options := { elsePolicy := .toggle }
    let context : DataContext := ⟨.object [("a", .string "1"), ("b", .string "2")]⟩
    d.WellFormed ∧ (∀ run ∈ d.runs, d.wordDescendants run "r" = []) ∧
      ∃ field ∈ (d.ifSpans options).1,
        (applyIf context d field).runTexts 14 = [(16, "onethree"), (18, "four")] ∧
          (applyIf context d field).runTexts 40 = [(42, "seveneight")] ∧
            (applyIf context d field).runTexts 37 = [(39, "yz")] := by
  intro d options context
  have hd : d.WellFormed := (displays_ofForest _).wellFormed
  have hall : d.runs.all (fun run => d.wordDescendants run "r" == []) = true := by
    decide +kernel
  have hflat : ∀ run ∈ d.runs, d.wordDescendants run "r" = [] := fun run hrun =>
    eq_of_beq (List.all_eq_true.1 hall run hrun)
  have hfields : (d.ifSpans options).1.map (fun field => (field.applied context).map fun inner =>
      (inner.side context, inner.markerRuns)) =
        [[(.ifTrue, [⟨14, [.ifTrue, .ifFalse, .ifTrue, .ifTrue, .ifFalse]⟩,
            ⟨22, [.ifFalse, .ifTrue]⟩, ⟨40, [.ifTrue, .outside]⟩]),
          (.ifFalse, [⟨37, [.ifTrue, .ifFalse, .outside, .outside]⟩])]] := by
    decide +kernel
  obtain ⟨field, hspans, happlied⟩ := List.map_eq_singleton_iff.1 hfields
  obtain ⟨outer, rest, happlied, houter, hrest⟩ := List.map_eq_cons_iff.1 happlied
  obtain ⟨inner, rfl, hinner⟩ := List.map_eq_singleton_iff.1 hrest
  obtain ⟨houterSide, houterMarkers⟩ := Prod.mk.inj houter
  obtain ⟨hinnerSide, hinnerMarkers⟩ := Prod.mk.inj hinner
  have hfield : field ∈ (d.ifSpans options).1 := by simp [hspans]
  have houterMem : outer ∈ field.applied context := by simp [happlied]
  have hinnerMem : inner ∈ field.applied context := by simp [happlied]
  have hsplit : outer.markerRuns =
      [⟨14, [.ifTrue, .ifFalse, .ifTrue, .ifTrue, .ifFalse]⟩, ⟨22, [.ifFalse, .ifTrue]⟩] ++
        [⟨40, [.ifTrue, .outside]⟩] := houterMarkers
  rw [← List.nil_append (_ :: _)] at houterMarkers hinnerMarkers
  have hfirst := (applyIf_keeps hd hflat hfield houterMem houterMarkers).1
  have hlast := (applyIf_keeps hd hflat hfield houterMem hsplit).1
  have hnested := (applyIf_keeps hd hflat hfield hinnerMem hinnerMarkers).1
  rw [houterSide] at hfirst hlast
  rw [hinnerSide] at hnested
  refine ⟨hd, hflat, field, hfield, hfirst.trans ?_, hlast.trans ?_, hnested.trans ?_⟩ <;>
    decide +kernel

end Document

end WordFields
