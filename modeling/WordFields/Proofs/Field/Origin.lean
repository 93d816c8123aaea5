import WordFields.Proofs.Field.Cleaning

/-!
# Where the texts of fields come from

The texts that are reported of a field come from text nodes: a run without markers gives the text of
all its text elements, and a run with markers gives the pieces between them.  `IfSpan.origins`
lists, text by text, the stretches of nodes that a text is put together from, as the sides that were
recorded for a run say which of its pieces are texts of the field.

The runs of the fields are different ones, and the pieces of a run are apart, so a character stands
in as many texts as there are runs around it at most (`ifSpans_origins`).  Where a run is inside
another, there may be two such texts (`not_origins_once`).
-/

namespace WordFields

open scoped List
open Text

/-- A part of the text of a node. -/
structure Stretch where
  node : NodeId
  /-- How many characters of the node come before it. -/
  start : Nat
  text : List Char
  deriving DecidableEq, Repr

namespace Stretch

/-- Whether a character of a node is in a stretch. -/
def covers (stretch : Stretch) (node : NodeId) (offset : Nat) : Bool :=
  stretch.node == node && stretch.start ≤ offset && offset < stretch.start + stretch.text.length

/-- Whether a stretch is a part of a text. -/
def IsPartOf (stretch : Stretch) (text : List Char) : Prop :=
  ∃ before after, text = before ++ (stretch.text ++ after) ∧ before.length = stretch.start

/-- Whether a stretch is a part of the text of its node. -/
def StandsIn (stretch : Stretch) (d : Document) : Prop :=
  ∃ value, (d.kind stretch.node).textValue? = some value ∧ stretch.IsPartOf value.toList

lemma node_eq_of_covers {stretch : Stretch} {node : NodeId} {offset : Nat}
    (h : stretch.covers node offset = true) : stretch.node = node := by
  simp only [covers, Bool.and_eq_true, beq_iff_eq] at h
  exact h.1.1

end Stretch

/-- The stretches that a text is put together from. -/
abbrev Origin := List Stretch

namespace Origin

def text (origin : Origin) : String :=
  String.ofList (origin.flatMap Stretch.text)

/-- Whether a character of a node is in a text. -/
def covers (node : NodeId) (offset : Nat) (origin : Origin) : Bool :=
  origin.any fun stretch => stretch.covers node offset

end Origin

/-! ## Pieces -/

namespace Piece

/-- The texts among the pieces of a node, the first piece having some characters before it. -/
def stretches (node : NodeId) : Nat → List Piece → List Stretch
  | _, [] => []
  | start, .text content :: pieces =>
    ⟨node, start, content⟩ :: stretches node (start + content.length) pieces
  | start, .marker found :: pieces => stretches node (start + found.spelling.length) pieces

lemma map_text_stretches (node : NodeId) (start : Nat) (pieces : List Piece) :
    (stretches node start pieces).map Stretch.text = texts pieces := by
  induction pieces generalizing start with
  | nil => rfl
  | cons piece pieces ih =>
    cases piece with
    | text content => rw [stretches, List.map_cons, ih, texts_cons_text]
    | marker found => rw [stretches, ih, texts_cons_marker]

lemma stretches_place {node : NodeId} {start : Nat} {pieces : List Piece} {stretch : Stretch}
    (h : stretch ∈ stretches node start pieces) :
    stretch.node = node ∧ start ≤ stretch.start ∧ ∃ before after,
      pieces.flatMap spelling = before ++ (stretch.text ++ after) ∧
        stretch.start = start + before.length := by
  induction pieces generalizing start with
  | nil => cases h
  | cons piece pieces ih =>
    cases piece with
    | text content =>
      rcases List.mem_cons.1 h with rfl | h
      · exact ⟨rfl, Nat.le_refl _, [], pieces.flatMap spelling, rfl, rfl⟩
      · obtain ⟨hnode, hle, before, after, htext, hstart⟩ := ih h
        refine ⟨hnode, by omega, content ++ before, after, ?_, ?_⟩
        · rw [List.flatMap_cons, spelling, htext, List.append_assoc]
        · rw [hstart, List.length_append]
          omega
    | marker found =>
      obtain ⟨hnode, hle, before, after, htext, hstart⟩ := ih h
      refine ⟨hnode, by omega, found.spelling ++ before, after, ?_, ?_⟩
      · rw [List.flatMap_cons, spelling, htext, List.append_assoc]
      · rw [hstart, List.length_append]
        omega

/-- The pieces of a text are apart from each other. -/
lemma countP_stretches_le (node : NodeId) (start : Nat) (pieces : List Piece) (x : NodeId)
    (offset : Nat) :
    (stretches node start pieces).countP (fun stretch => stretch.covers x offset) ≤
      if node = x then 1 else 0 := by
  induction pieces generalizing start with
  | nil => exact Nat.zero_le _
  | cons piece pieces ih =>
    cases piece with
    | text content =>
      rw [stretches, List.countP_cons]
      split
      next hcovers =>
        obtain rfl : node = x := Stretch.node_eq_of_covers hcovers
        have hnone : (stretches node (start + content.length) pieces).countP
            (fun stretch => stretch.covers node offset) = 0 := by
          refine List.countP_eq_zero.2 fun stretch hstretch hcovers' => ?_
          have hle := (stretches_place hstretch).2.1
          simp only [Stretch.covers, Bool.and_eq_true, decide_eq_true_eq] at hcovers hcovers'
          omega
        rw [hnone, if_pos rfl]
      next => exact ih _
    | marker found => exact ih _

/-- The pieces of different nodes are apart as well. -/
lemma countP_flatMap_stretches_le {texts : List (NodeId × String)}
    (hnodup : (texts.map Prod.fst).Nodup) (x : NodeId) (offset : Nat) :
    (texts.flatMap fun entry => stretches entry.1 0 (ofText entry.2.toList)).countP
      (fun stretch => stretch.covers x offset) ≤ 1 := by
  induction texts with
  | nil => exact Nat.zero_le _
  | cons entry texts ih =>
    obtain ⟨hhead, htail⟩ := List.nodup_cons.1 hnodup
    have hrest := ih htail
    have hfirst := countP_stretches_le entry.1 0 (ofText entry.2.toList) x offset
    rw [List.flatMap_cons, List.countP_append]
    by_cases hx : entry.1 = x
    · have hnone : (texts.flatMap fun entry => stretches entry.1 0 (ofText entry.2.toList)).countP
          (fun stretch => stretch.covers x offset) = 0 := by
        refine List.countP_eq_zero.2 fun stretch hstretch hcovers => hhead ?_
        obtain ⟨other, hother, hmem⟩ := List.mem_flatMap.1 hstretch
        rw [hx, ← Stretch.node_eq_of_covers hcovers, (stretches_place hmem).1]
        exact List.mem_map_of_mem hother
      rw [if_pos hx] at hfirst
      omega
    · rw [if_neg hx] at hfirst
      omega

/-- A text is cut into pieces, and nothing is lost. -/
lemma flatMap_spelling_ofText (text : List Char) : (ofText text).flatMap spelling = text := by
  cases hcut : Marker.cut? text with
  | none =>
    rw [ofText_of_cut?_none hcut]
    simp [spelling]
  | some found =>
    obtain ⟨before, found, after⟩ := found
    have hlength : after.length < text.length := length_lt_of_cut? hcut
    rw [ofText_of_cut? hcut, List.flatMap_cons, List.flatMap_cons, flatMap_spelling_ofText after,
      spelling, spelling]
    exact (Marker.eq_append_of_cut? hcut).symm
termination_by text.length

end Piece

/-! ## Runs -/

namespace Document

variable {d : Document}

/-- The texts that the text of a node is put together from. -/
def contentOrigin (d : Document) (id : NodeId) : Origin :=
  match (d.kind id).textValue? with
  | some value => [⟨id, 0, value.toList⟩]
  | none => (d.descendants id).filterMap fun x =>
      (d.kind x).textValue?.map fun value => ⟨x, 0, value.toList⟩

/-- The texts that the text of a run is put together from. -/
def runOrigin (d : Document) (run : NodeId) : Origin :=
  (d.wordDescendants run "t").flatMap d.contentOrigin

/-- The pieces of a run with markers. -/
def pieceStretches (d : Document) (run : NodeId) : List Stretch :=
  (d.runTexts run).flatMap fun entry =>
    Piece.stretches entry.1 0 (Piece.ofText entry.2.toList)

end Document

/-- Whether a piece of a run with markers is a text of a branch, given its side. -/
def Stretch.counts (options : Options) (stretch : Stretch) (side : Side) : Bool :=
  !(side == .outside || allBlank stretch.text || IfContent.isPlaceholder options stretch.text)

def keptStretches (options : Options) (stretches : List Stretch) (sides : List Side) :
    List Stretch :=
  ((stretches.zip sides).filter fun pair => pair.1.counts options pair.2).map Prod.fst

lemma keptStretches_cons (options : Options) (stretch : Stretch) (stretches : List Stretch)
    (side : Side) (sides : List Side) :
    keptStretches options (stretch :: stretches) (side :: sides) =
      if stretch.counts options side then stretch :: keptStretches options stretches sides
      else keptStretches options stretches sides := by
  rw [keptStretches, List.zip_cons_cons, List.filter_cons]
  split <;> rfl

/-- The texts of the branches in a run with markers. -/
def MarkerRun.origins (d : Document) (options : Options) (marker : MarkerRun) : List Origin :=
  (keptStretches options (d.pieceStretches marker.run) marker.sides).map fun stretch => [stretch]

mutual

/-- The origins of all texts of a field, those of fields inside it among them. -/
def IfSpan.origins (d : Document) (options : Options) : IfSpan → List Origin
  | ⟨_, _, _, ifTrue, ifFalse, markerRuns, _⟩ =>
    (entriesOrigins d options ifTrue ++ entriesOrigins d options ifFalse) ++
      markerRuns.flatMap fun marker => marker.origins d options

/-- The origins of the texts that are entries, or in fields that are.  Fragments are accounted for
by the runs with markers. -/
def entriesOrigins (d : Document) (options : Options) : List BranchEntry → List Origin
  | [] => []
  | entry :: rest => entry.origins d options ++ entriesOrigins d options rest

def BranchEntry.origins (d : Document) (options : Options) : BranchEntry → List Origin
  | .text run _ => [d.runOrigin run]
  | .run _ => []
  | .nested field => field.origins d options
  | .fragment _ => []

end

mutual

/-- The texts of all entries of a field, those of fields inside it among them. -/
def IfSpan.texts : IfSpan → List String
  | ⟨_, _, _, ifTrue, ifFalse, _, _⟩ => entriesTexts ifTrue ++ entriesTexts ifFalse

def entriesTexts : List BranchEntry → List String
  | [] => []
  | entry :: rest => entry.texts ++ entriesTexts rest

def BranchEntry.texts : BranchEntry → List String
  | .text _ text => [text]
  | .run _ => []
  | .nested field => field.texts
  | .fragment text => [text]

end

/-! ## What stands at an origin -/

namespace Document

variable {d : Document}

lemma text_contentOrigin (d : Document) (id : NodeId) :
    (d.contentOrigin id).text = d.textContent id := by
  cases hkind : (d.kind id).textValue? with
  | some value => simp [contentOrigin, textContent, hkind, Origin.text]
  | none =>
    simp only [contentOrigin, textContent, hkind, concat, Origin.text]
    congr 1
    induction d.descendants id with
    | nil => rfl
    | cons x ids ih => cases hvalue : (d.kind x).textValue? <;> simp [hvalue, ih]

lemma text_runOrigin (d : Document) (run : NodeId) : (d.runOrigin run).text = d.runText run := by
  rw [runOrigin, runText, concat, Origin.text]
  congr 1
  rw [List.flatMap_assoc, List.flatMap_map]
  refine List.flatMap_congr fun holder _ => ?_
  rw [← text_contentOrigin, Origin.text, String.toList_ofList]

lemma stands_of_mem_contentOrigin {id : NodeId} {stretch : Stretch}
    (h : stretch ∈ d.contentOrigin id) :
    (stretch.node = id ∨ stretch.node ∈ d.descendants id) ∧ stretch.StandsIn d := by
  unfold contentOrigin at h
  split at h
  next value hvalue =>
    obtain rfl := List.mem_singleton.1 h
    exact ⟨.inl rfl, value, hvalue, [], [], (List.append_nil _).symm, rfl⟩
  next =>
    obtain ⟨x, hx, hsome⟩ := List.mem_filterMap.1 h
    obtain ⟨value, hvalue, rfl⟩ := Option.map_eq_some_iff.1 hsome
    exact ⟨.inr hx, value, hvalue, [], [], (List.append_nil _).symm, rfl⟩

lemma stands_of_mem_runOrigin (hd : d.WellFormed) {run : NodeId} {stretch : Stretch}
    (h : stretch ∈ d.runOrigin run) : stretch.node ∈ d.descendants run ∧ stretch.StandsIn d := by
  obtain ⟨holder, hholder, hstretch⟩ := List.mem_flatMap.1 h
  have hbelow := List.mem_of_mem_filter hholder
  obtain ⟨rfl | hmem, hstands⟩ := stands_of_mem_contentOrigin hstretch
  · exact ⟨hbelow, hstands⟩
  · rw [hd.mem_descendants] at hbelow hmem ⊢
    exact ⟨hbelow.trans hmem, hstands⟩

lemma stands_of_mem_pieceStretches (hd : d.WellFormed) {run : NodeId} {stretch : Stretch}
    (h : stretch ∈ d.pieceStretches run) :
    stretch.node ∈ d.descendants run ∧ stretch.StandsIn d := by
  obtain ⟨⟨id, text⟩, hentry, hstretch⟩ := List.mem_flatMap.1 h
  obtain ⟨hplace, hkind⟩ := mem_runTexts_iff.1 hentry
  obtain ⟨hnode, -, before, after, htext, hstart⟩ := Piece.stretches_place hstretch
  rw [Piece.flatMap_spelling_ofText] at htext
  rw [hnode, hd.mem_descendants]
  refine ⟨hd.below_of_inTextOf hplace, text, ?_, before, after, htext, by omega⟩
  rw [hnode, hkind]
  rfl

/-- The pieces of a run are texts between its markers. -/
lemma map_text_pieceStretches (d : Document) (run : NodeId) :
    (d.pieceStretches run).map Stretch.text =
      Piece.texts (((d.runTexts run).map Prod.snd).flatMap fun text =>
        Piece.ofText text.toList) := by
  rw [pieceStretches, List.map_flatMap, List.flatMap_map, Piece.texts, List.filterMap_flatMap]
  exact List.flatMap_congr fun entry _ => Piece.map_text_stretches entry.1 0 _

/-- The pieces of a run are apart from each other, and are in the run. -/
lemma countP_pieceStretches_le (hd : d.WellFormed) (run x : NodeId) (offset : Nat) :
    (d.pieceStretches run).countP (fun stretch => stretch.covers x offset) ≤
      if x ∈ d.descendants run then 1 else 0 := by
  split
  next => exact Piece.countP_flatMap_stretches_le (hd.nodup_runTexts run) x offset
  next hout =>
    refine Nat.le_of_eq (List.countP_eq_zero.2 fun stretch hstretch hcovers => hout ?_)
    rw [← Stretch.node_eq_of_covers hcovers]
    exact (stands_of_mem_pieceStretches hd hstretch).1

end Document

/-! ## How often a character is used -/

lemma keptStretches_sublist (options : Options) (stretches : List Stretch) (sides : List Side) :
    (keptStretches options stretches sides).Sublist stretches := by
  refine ((List.filter_sublist).map Prod.fst).trans ?_
  rw [List.zip_eq_zip_take_min, List.map_fst_zip (by simp)]
  exact List.take_sublist _ _

section

variable {d : Document} {options : Options} {x : NodeId} {offset : Nat}

lemma MarkerRun.countP_origins_le (hd : d.WellFormed) (options : Options) (marker : MarkerRun)
    (x : NodeId) (offset : Nat) :
    (marker.origins d options).countP (Origin.covers x offset) ≤
      if x ∈ d.descendants marker.run then 1 else 0 := by
  refine Nat.le_trans ?_ (Document.countP_pieceStretches_le hd marker.run x offset)
  have hsingle : (Origin.covers x offset ∘ fun stretch => [stretch]) =
      fun stretch => stretch.covers x offset := by
    funext stretch
    simp [Origin.covers]
  rw [origins, List.countP_map, hsingle]
  exact (keptStretches_sublist options _ _).countP_le

lemma countP_runOrigin_le (hd : d.WellFormed) (run : NodeId) :
    [d.runOrigin run].countP (Origin.covers x offset) ≤
      if x ∈ d.descendants run then 1 else 0 := by
  rw [List.countP_singleton]
  split
  next hcovers =>
    obtain ⟨stretch, hstretch, hcovers⟩ := List.any_eq_true.1 hcovers
    have hmem := (Document.stands_of_mem_runOrigin hd hstretch).1
    rw [Stretch.node_eq_of_covers hcovers] at hmem
    rw [if_pos hmem]
  next => exact Nat.zero_le _

lemma countP_singleton_mem (d : Document) (x run : NodeId) :
    [run].countP (fun run => x ∈ d.descendants run) = if x ∈ d.descendants run then 1 else 0 := by
  simp [List.countP_singleton]

lemma countP_markerOrigins_le (hd : d.WellFormed) (options : Options) (markers : List MarkerRun)
    (x : NodeId) (offset : Nat) :
    (markers.flatMap fun marker => marker.origins d options).countP (Origin.covers x offset) ≤
      (markers.map MarkerRun.run).countP fun run => x ∈ d.descendants run := by
  induction markers with
  | nil => exact Nat.zero_le _
  | cons marker markers ih =>
    have hmarker := marker.countP_origins_le hd options x offset
    rw [← countP_singleton_mem] at hmarker
    rw [List.flatMap_cons, List.countP_append, List.map_cons, ← List.singleton_append,
      List.countP_append]
    exact Nat.add_le_add hmarker ih

mutual

/-- A character is in as many texts of a field as there are runs of the field around it, at most. -/
theorem IfSpan.countP_origins_le (hd : d.WellFormed) : (field : IfSpan) →
    (field.origins d options).countP (Origin.covers x offset) ≤
      field.runs.countP fun run => x ∈ d.descendants run
  | ⟨condition, first, codeRuns, ifTrue, ifFalse, markerRuns, next⟩ => by
    have htrue := countP_entriesOrigins_le hd ifTrue
    have hfalse := countP_entriesOrigins_le hd ifFalse
    have hmarkers := countP_markerOrigins_le hd options markerRuns x offset
    simp only [IfSpan.origins, IfSpan.runs, List.countP_append]
    omega

theorem countP_entriesOrigins_le (hd : d.WellFormed) : (entries : List BranchEntry) →
    (entriesOrigins d options entries).countP (Origin.covers x offset) ≤
      (entriesRuns entries).countP fun run => x ∈ d.descendants run
  | [] => Nat.zero_le _
  | entry :: rest => by
    rw [entriesOrigins, entriesRuns, List.countP_append, List.countP_append]
    exact Nat.add_le_add (entry.countP_origins_le hd) (countP_entriesOrigins_le hd rest)

theorem BranchEntry.countP_origins_le (hd : d.WellFormed) : (entry : BranchEntry) →
    (entry.origins d options).countP (Origin.covers x offset) ≤
      entry.runs.countP fun run => x ∈ d.descendants run
  | .text run _ => by
    rw [BranchEntry.origins, BranchEntry.runs, countP_singleton_mem]
    exact countP_runOrigin_le hd run
  | .run _ => Nat.zero_le _
  | .nested field => by
    rw [BranchEntry.origins, BranchEntry.runs]
    exact field.countP_origins_le hd
  | .fragment _ => Nat.zero_le _

end

end

/-! ## Where a text stands -/

section

variable {d : Document} {options : Options} {origin : Origin} {stretch : Stretch}

lemma MarkerRun.stands_of_mem_origins (hd : d.WellFormed) {marker : MarkerRun}
    (horigin : origin ∈ marker.origins d options) (hstretch : stretch ∈ origin) :
    stretch.StandsIn d := by
  obtain ⟨kept, hkept, rfl⟩ := List.mem_map.1 horigin
  obtain rfl := List.mem_singleton.1 hstretch
  have hmem := (keptStretches_sublist options _ _).subset hkept
  exact (Document.stands_of_mem_pieceStretches hd hmem).2

mutual

theorem IfSpan.stands_of_mem_origins (hd : d.WellFormed) (hstretch : stretch ∈ origin) :
    (field : IfSpan) → origin ∈ field.origins d options → stretch.StandsIn d
  | ⟨condition, first, codeRuns, ifTrue, ifFalse, markerRuns, next⟩, h => by
    rw [IfSpan.origins] at h
    rcases List.mem_append.1 h with h | h
    · rcases List.mem_append.1 h with h | h
      · exact stands_of_mem_entriesOrigins hd hstretch ifTrue h
      · exact stands_of_mem_entriesOrigins hd hstretch ifFalse h
    · obtain ⟨marker, -, horigin⟩ := List.mem_flatMap.1 h
      exact marker.stands_of_mem_origins hd horigin hstretch

theorem stands_of_mem_entriesOrigins (hd : d.WellFormed) (hstretch : stretch ∈ origin) :
    (entries : List BranchEntry) → origin ∈ entriesOrigins d options entries → stretch.StandsIn d
  | [], h => by cases h
  | entry :: rest, h => by
    rw [entriesOrigins] at h
    rcases List.mem_append.1 h with h | h
    · exact entry.stands_of_mem_origins hd hstretch h
    · exact stands_of_mem_entriesOrigins hd hstretch rest h

theorem BranchEntry.stands_of_mem_origins (hd : d.WellFormed) (hstretch : stretch ∈ origin) :
    (entry : BranchEntry) → origin ∈ entry.origins d options → stretch.StandsIn d
  | .text run _, h => by
    obtain rfl := List.mem_singleton.1 h
    exact (Document.stands_of_mem_runOrigin hd hstretch).2
  | .run _, h => by cases h
  | .nested field, h => by
    rw [BranchEntry.origins] at h
    exact field.stands_of_mem_origins hd hstretch h
  | .fragment _, h => by cases h

end

end

/-! ## What is accounted for -/

lemma entriesOrigins_eq_flatMap (d : Document) (options : Options) (entries : List BranchEntry) :
    entriesOrigins d options entries = entries.flatMap (BranchEntry.origins d options) := by
  induction entries with
  | nil => rfl
  | cons entry entries ih => rw [entriesOrigins, ih, List.flatMap_cons]

lemma entriesTexts_eq_flatMap (entries : List BranchEntry) :
    entriesTexts entries = entries.flatMap BranchEntry.texts := by
  induction entries with
  | nil => rfl
  | cons entry entries ih => rw [entriesTexts, ih, List.flatMap_cons]

namespace IfContent

lemma entries_add (content : IfContent) (entry : BranchEntry) :
    (content.add entry).entries ~ content.entries ++ [entry] := by
  unfold add entries
  split
  · rw [List.append_assoc, List.append_assoc]
    exact .append_left _ List.perm_append_comm
  · rw [List.append_assoc]

lemma side_eq_outside (content : IfContent) : (content.side == .outside) = content.isClosed := by
  unfold side Side.ofBranch
  cases content.isClosed <;> cases content.inTrue <;> rfl

/-- The pieces of a run that are read as fragments are those that their sides say. -/
lemma addPieces?_origins {options : Options} {content after : IfContent} {pieces : List Piece}
    {sides : List Side} (h : addPieces? options content pieces = some (sides, after))
    {stretches : List Stretch} (hstretches : stretches.map Stretch.text = Piece.texts pieces) :
    after.entries ~ content.entries ++
      (keptStretches options stretches sides).map fun stretch =>
        .fragment (String.ofList stretch.text) := by
  induction pieces generalizing content sides stretches with
  | nil =>
    cases h
    rw [List.map_eq_nil_iff.1 hstretches]
    simp [keptStretches]
  | cons piece pieces ih =>
    cases piece with
    | text text =>
      obtain ⟨⟨sides', read⟩, hread, heq⟩ := Option.map_eq_some_iff.1 h
      cases heq
      rw [Piece.texts_cons_text] at hstretches
      obtain ⟨stretch, rest, rfl, rfl, hrest⟩ := List.map_eq_cons_iff.1 hstretches
      refine (ih hread hrest).trans ?_
      rw [addFragment, keptStretches_cons, Stretch.counts, side_eq_outside]
      cases (content.isClosed || allBlank stretch.text || isPlaceholder options stretch.text) with
      | true => exact .refl _
      | false =>
        refine ((content.entries_add _).append_right _).trans ?_
        rw [List.append_assoc]
        exact .refl _
    | marker marker =>
      rw [addPieces?] at h
      split at h
      next read hmarker =>
        rw [← (addMarker?_keeps hmarker).2]
        exact ih h hstretches
      next => cases h

/-- Whether the texts of a content are those at the origins that it tells. -/
def Accounted (d : Document) (options : Options) (content : IfContent) : Prop :=
  (entriesOrigins d options content.entries ++
      content.markerRuns.flatMap fun marker => marker.origins d options).map Origin.text ~
    entriesTexts content.entries

variable {d : Document} {options : Options} {content after : IfContent}

lemma accounted_empty : Accounted d options {} :=
  .refl _

lemma Accounted.add (h : content.Accounted d options) {entry : BranchEntry}
    (hentry : (entry.origins d options).map Origin.text ~ entry.texts) :
    (content.add entry).Accounted d options := by
  unfold Accounted
  have hentries := content.entries_add entry
  rw [markerRuns_add, entriesOrigins_eq_flatMap, entriesTexts_eq_flatMap]
  calc ((content.add entry).entries.flatMap (BranchEntry.origins d options) ++
        content.markerRuns.flatMap fun marker => marker.origins d options).map Origin.text
    _ ~ (content.entries.flatMap (BranchEntry.origins d options) ++ entry.origins d options ++
        content.markerRuns.flatMap fun marker => marker.origins d options).map Origin.text := by
      refine ((hentries.flatMap_right _).append_right _).map _ |>.trans ?_
      rw [List.flatMap_append, List.flatMap_singleton]
    _ ~ (entriesOrigins d options content.entries ++
          content.markerRuns.flatMap fun marker => marker.origins d options).map Origin.text ++
        (entry.origins d options).map Origin.text := by
      rw [entriesOrigins_eq_flatMap, List.append_assoc, List.map_append, List.map_append,
        List.map_append, List.append_assoc]
      exact .append_left _ List.perm_append_comm
    _ ~ entriesTexts content.entries ++ entry.texts := h.append hentry
    _ ~ (content.add entry).entries.flatMap BranchEntry.texts := by
      rw [entriesTexts_eq_flatMap]
      refine .trans ?_ (hentries.flatMap_right _).symm
      rw [List.flatMap_append, List.flatMap_singleton]

lemma Accounted.addRun (h : content.Accounted d options) (run : NodeId) :
    (content.addRun options run (d.runText run)).Accounted d options := by
  unfold IfContent.addRun
  split
  · exact h.add (.refl _)
  · refine h.add ?_
    rw [BranchEntry.origins, BranchEntry.texts, List.map_singleton, Document.text_runOrigin]

lemma Accounted.addMarkerRun? (h : content.Accounted d options) {run : NodeId}
    (hread : content.addMarkerRun? options run ((d.runTexts run).map Prod.snd) = some after) :
    after.Accounted d options := by
  obtain ⟨⟨sides, read⟩, hpieces, rfl⟩ := Option.map_eq_some_iff.1 hread
  have hentries := addPieces?_origins hpieces (d.map_text_pieceStretches run)
  have hmarkers := markerRuns_addPieces? hpieces
  set kept := keptStretches options (d.pieceStretches run) sides
  set fragments : List BranchEntry := kept.map fun stretch =>
    .fragment (String.ofList stretch.text)
  have horigins : fragments.flatMap (BranchEntry.origins d options) = [] := by
    rw [List.flatMap_map]
    exact List.flatMap_eq_nil_iff.2 fun _ _ => rfl
  have htexts : fragments.flatMap BranchEntry.texts =
      (kept.map fun stretch => ([stretch] : Origin)).map Origin.text := by
    rw [List.flatMap_map, List.map_map, List.map_eq_flatMap]
    refine List.flatMap_congr fun stretch _ => ?_
    simp [BranchEntry.texts, Origin.text]
  unfold Accounted
  rw [entriesOrigins_eq_flatMap, entriesTexts_eq_flatMap]
  set marked : MarkerRun := ⟨run, sides⟩
  have hmarkerRuns : (read.markerRuns ++ [marked]).flatMap
      (fun marker => marker.origins d options) =
        (content.markerRuns.flatMap fun marker => marker.origins d options) ++
          kept.map fun stretch => [stretch] := by
    rw [hmarkers, List.flatMap_append, List.flatMap_singleton]
    rfl
  calc (read.entries.flatMap (BranchEntry.origins d options) ++
        (read.markerRuns ++ [marked]).flatMap fun marker => marker.origins d options).map
          Origin.text
    _ ~ ((content.entries ++ fragments).flatMap (BranchEntry.origins d options) ++
          ((content.markerRuns.flatMap fun marker => marker.origins d options) ++
            kept.map fun stretch => [stretch])).map Origin.text := by
      rw [hmarkerRuns]
      exact ((hentries.flatMap_right _).append_right _).map _
    _ = (entriesOrigins d options content.entries ++
            content.markerRuns.flatMap fun marker => marker.origins d options).map Origin.text ++
          (kept.map fun stretch => ([stretch] : Origin)).map Origin.text := by
      rw [List.flatMap_append, horigins, List.append_nil, ← entriesOrigins_eq_flatMap,
        ← List.append_assoc, List.map_append]
    _ ~ content.entries.flatMap BranchEntry.texts ++ fragments.flatMap BranchEntry.texts := by
      rw [htexts, ← entriesTexts_eq_flatMap]
      exact h.append_right _
    _ ~ read.entries.flatMap BranchEntry.texts := by
      rw [← List.flatMap_append]
      exact (hentries.flatMap_right _).symm

end IfContent

namespace Document

variable {d : Document} {options : Options} {runs : List NodeId}

lemma ContentRun.accounted {nested : Nat → Except IfProblem IfSpan} {index next : Nat}
    {content after : IfContent}
    (hprogress : ∀ index field, nested index = .ok field → index < field.next)
    (hnested : ∀ later field, index ≤ later → nested later = .ok field →
      (field.origins d options).map Origin.text ~ field.texts)
    (h : ContentRun d options runs nested index content next after)
    (hcontent : content.Accounted d options) : after.Accounted d options := by
  induction h with
  | closed _ => exact hcontent
  | @step index index' next content content' after first rest ih =>
    have hlt : index < index' := (first.progress hprogress).2
    refine ih (fun later field hlater => hnested later field (by omega)) ?_
    cases first with
    | nested _ _ _ reads =>
      refine hcontent.add ?_
      rw [BranchEntry.origins, BranchEntry.texts]
      exact hnested _ _ (Nat.le_refl _) reads
    | markers _ _ _ _ reads => exact hcontent.addMarkerRun? reads
    | plain _ _ _ _ => exact hcontent.addRun _

/-- The texts of a field that was read are those at its origins. -/
lemma readIf_texts_perm {index : Nat} {field : IfSpan}
    (h : d.readIf options runs index = .ok field) :
    (field.origins d options).map Origin.text ~ field.texts := by
  obtain ⟨header, content, next, hheader, hrun, rfl⟩ := readIf_eq_ok_iff.1 h
  have hbounds := readHeader_bounds hheader
  have haccounted := hrun.accounted (fun _ _ => readIf_progress)
    (fun later field hlater reads => readIf_texts_perm reads) IfContent.accounted_empty
  simpa only [IfContent.Accounted, IfContent.entries, entriesOrigins_eq_flatMap,
    entriesTexts_eq_flatMap, List.flatMap_append, IfSpan.origins, IfSpan.texts, spanOf]
    using haccounted
termination_by runs.length - index
decreasing_by
  have hlt : later < runs.length := by
    have hnext := readIf_next_le_length reads
    have hprogress := readIf_progress reads
    omega
  omega

/-- Where the texts of all fields come from.  The origins are those of these texts, text by text; a
text is put together from parts of nodes; and a character is in as many texts as there are runs
around it, at most. -/
theorem ifSpans_origins (hd : d.WellFormed) (options : Options) :
    let fields := (d.ifSpans options).1
    let origins := fields.flatMap (IfSpan.origins d options)
    origins.map Origin.text ~ fields.flatMap IfSpan.texts ∧
      (∀ origin ∈ origins, ∀ stretch ∈ origin, stretch.StandsIn d) ∧
      ∀ x offset, origins.countP (Origin.covers x offset) ≤
        d.runs.countP fun run => x ∈ d.descendants run := by
  intro fields origins
  refine ⟨?_, fun origin horigin stretch hstretch => ?_, fun x offset => ?_⟩
  · rw [List.map_flatMap]
    exact List.Perm.flatMap_left _ fun field hfield =>
      readIf_texts_perm (readIf_of_mem_ifSpans hfield)
  · obtain ⟨field, -, hmem⟩ := List.mem_flatMap.1 horigin
    exact field.stands_of_mem_origins hd hstretch hmem
  · have hfields : ∀ fields : List IfSpan,
        (fields.flatMap (IfSpan.origins d options)).countP (Origin.covers x offset) ≤
          (fields.flatMap IfSpan.runs).countP fun run => x ∈ d.descendants run := by
      intro fields
      induction fields with
      | nil => exact Nat.zero_le _
      | cons field fields ih =>
        rw [List.flatMap_cons, List.flatMap_cons, List.countP_append, List.countP_append]
        exact Nat.add_le_add (field.countP_origins_le hd) ih
    exact (hfields fields).trans ((d.ifSpans_runs_subperm options).countP_le _)

/-- A page with a field, a run of which holds another run, and whose last run has all its markers in
one text. -/
def boxedPage : Document :=
  ofForest [.word "p" [wordDeclaration]
    ((Cell.field ⟨"a", "=", "1"⟩).contents.map RunContent.tree ++
      [.word "r" [] [.word "t" [] [.node (.text "a") []], RunContent.tree (.text "b")],
        RunContent.tree (.text "c%else%d%end%e")])]

lemma wellFormed_boxedPage : boxedPage.WellFormed :=
  (displays_ofForest _).wellFormed

lemma origins_boxedPage :
    ((boxedPage.ifSpans {}).1.flatMap (IfSpan.origins boxedPage {})) =
      [[⟨16, 0, ['a']⟩, ⟨19, 0, ['b']⟩], [⟨19, 0, ['b']⟩], [⟨22, 0, ['c']⟩], [⟨22, 7, ['d']⟩]] := by
  decide +kernel

/-- The text of the inner run is in two texts, and two runs are around it. -/
theorem ifSpans_origins_boxed :
    let fields := (boxedPage.ifSpans {}).1
    let origins := fields.flatMap (IfSpan.origins boxedPage {})
    boxedPage.WellFormed ∧ origins.map Origin.text = ["ab", "b", "c", "d"] ∧
      ["ab", "b", "c", "d"] ~ fields.flatMap IfSpan.texts ∧
      origins.countP (Origin.covers 19 0) = 2 ∧
      origins.countP (Origin.covers 19 0) ≤
        boxedPage.runs.countP fun run => 19 ∈ boxedPage.descendants run := by
  intro fields origins
  have htexts : origins.map Origin.text = ["ab", "b", "c", "d"] := by
    rw [show origins = _ from origins_boxedPage]
    decide
  have hcount : origins.countP (Origin.covers 19 0) = 2 := by
    rw [show origins = _ from origins_boxedPage]
    decide
  obtain ⟨hperm, -, hle⟩ := ifSpans_origins wellFormed_boxedPage {}
  exact ⟨wellFormed_boxedPage, htexts, htexts ▸ hperm, hcount, hle 19 0⟩

/-- A text node may be in two texts: because it is in two runs, and where it is in one run only,
because it is divided by a marker. -/
theorem not_origins_once :
    (¬ ∀ (d : Document) (options : Options), d.WellFormed → ∀ x,
      ((d.ifSpans options).1.flatMap (IfSpan.origins d options)).countP (fun origin =>
        origin.any fun stretch => stretch.node == x && !stretch.text.isEmpty) ≤ 1) ∧
    (boxedPage.runs.countP fun run => 22 ∈ boxedPage.descendants run) = 1 ∧
    ((boxedPage.ifSpans {}).1.flatMap (IfSpan.origins boxedPage {})).countP
      (fun origin => origin.any fun stretch => stretch.node == 22 && !stretch.text.isEmpty) = 2 := by
  refine ⟨fun h => ?_, by decide +kernel, ?_⟩
  · have honce := h boxedPage {} wellFormed_boxedPage 19
    rw [origins_boxedPage] at honce
    revert honce
    decide
  · rw [origins_boxedPage]
    decide

end Document

end WordFields
