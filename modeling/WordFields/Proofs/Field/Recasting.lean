import WordFields.Proofs.Field.Agreement
import WordFields.Proofs.Field.Cleaning
import WordFields.Proofs.Field.Repetition

/-!
# Texts that are written as CDATA

The text of a node counts CDATA, but the texts that a run is searched for markers in, and that are
cut when a branch is given up, are those of text nodes only.  `Document.recast` writes text nodes as
CDATA.  As long as no marker is among them the same fields are found, with the same problems, and as
long as they are in runs without markers a pass leaves the same texts
(`processIfFields_recast`).  CDATA in a run with markers stays whatever the branch is
(`not_textRuns_recast_shared`).
-/

namespace WordFields

/-- The kind of a text that is written as CDATA; another node stays what it is. -/
def NodeKind.asCData : NodeKind → NodeKind
  | .text value => .cdata value
  | kind => kind

@[simp] lemma NodeKind.element?_asCData (kind : NodeKind) :
    kind.asCData.element? = kind.element? := by
  cases kind <;> rfl

@[simp] lemma NodeKind.textValue?_asCData (kind : NodeKind) :
    kind.asCData.textValue? = kind.textValue? := by
  cases kind <;> rfl

@[simp] lemma NodeKind.asCData_asCData (kind : NodeKind) : kind.asCData.asCData = kind.asCData := by
  cases kind <;> rfl

namespace Document

variable {d d' : Document} {ids : List NodeId}

/-- Writes texts as CDATA. -/
def recast (d : Document) (ids : List NodeId) : Document :=
  ids.foldl (fun d id => d.setKind id (d.kind id).asCData) d

/-- Whether a document is another one with some texts written as CDATA. -/
structure Recasts (d d' : Document) (ids : List NodeId) : Prop where
  size_eq : d'.size = d.size
  parent_eq : ∀ x, d'.parent x = d.parent x
  children_eq : ∀ x, d'.children x = d.children x
  kind_eq : ∀ x, d'.kind x = if x ∈ ids then (d.kind x).asCData else d.kind x

lemma kind_recast_single (d : Document) (id x : NodeId) :
    (d.setKind id (d.kind id).asCData).kind x =
      if x = id then (d.kind x).asCData else d.kind x := by
  rw [kind_setKind]
  by_cases hx : x = id
  · subst hx
    by_cases hlt : x < d.size
    · simp [hlt]
    · have hkind : d.kind x = .document := by rw [kind, node_of_size_le (Nat.le_of_not_lt hlt)]; rfl
      simp [hlt, hkind, NodeKind.asCData]
  · simp [hx]

lemma recasts_recast (d : Document) (ids : List NodeId) : d.Recasts (d.recast ids) ids := by
  induction ids generalizing d with
  | nil => exact ⟨rfl, fun _ => rfl, fun _ => rfl, fun x => by simp [recast]⟩
  | cons id ids ih =>
    have hrest := ih (d.setKind id (d.kind id).asCData)
    refine ⟨hrest.size_eq.trans (size_setKind ..),
      fun x => (hrest.parent_eq x).trans (parent_setKind ..),
      fun x => (hrest.children_eq x).trans (children_setKind ..),
      fun x => (hrest.kind_eq x).trans ?_⟩
    rw [kind_recast_single]
    by_cases hx : x = id <;> by_cases hmem : x ∈ ids <;> simp [hx, hmem]

/-! ## What does not change -/

namespace Recasts

lemma element?_eq (h : d.Recasts d' ids) (x : NodeId) : d'.element? x = d.element? x := by
  rw [element?, element?, h.kind_eq]
  split
  · exact NodeKind.element?_asCData _
  · rfl

lemma textValue?_eq (h : d.Recasts d' ids) (x : NodeId) :
    (d'.kind x).textValue? = (d.kind x).textValue? := by
  rw [h.kind_eq]
  split
  · exact NodeKind.textValue?_asCData _
  · rfl

lemma wellFormed (h : d.Recasts d' ids) (hd : d.WellFormed) : d'.WellFormed :=
  hd.congr h.parent_eq h.children_eq h.size_eq.ge

lemma descendants_eq (h : d.Recasts d' ids) (hd : d.WellFormed) (x : NodeId) :
    d'.descendants x = d.descendants x :=
  hd.descendants_congr (h.wellFormed hd) fun y _ => h.children_eq y

lemma isWord_eq (h : d.Recasts d' ids) (x : NodeId) (localName : String) :
    d'.isWord x localName = d.isWord x localName := by
  simp only [isWord, isElementIn, h.element?_eq]

lemma isElement_eq (h : d.Recasts d' ids) : d'.isElement = d.isElement := by
  funext x
  exact congrArg Option.isSome (h.element?_eq x)

lemma wordDescendants_eq (h : d.Recasts d' ids) (hd : d.WellFormed) (x : NodeId)
    (localName : String) : d'.wordDescendants x localName = d.wordDescendants x localName := by
  simp only [wordDescendants, descendantsIn, isElementIn, h.descendants_eq hd, h.element?_eq]

lemma textContent_eq (h : d.Recasts d' ids) (hd : d.WellFormed) (x : NodeId) :
    d'.textContent x = d.textContent x := by
  simp only [textContent, h.textValue?_eq, h.descendants_eq hd]

lemma textRuns_eq (h : d.Recasts d' ids) (hd : d.WellFormed) : d'.textRuns = d.textRuns := by
  have helements : d'.textElements = d.textElements := h.wordDescendants_eq hd root "t"
  have htext : d'.textContent = d.textContent := funext (h.textContent_eq hd)
  rw [textRuns, textRuns, helements, htext]

lemma fieldMark?_eq (h : d.Recasts d' ids) (x : NodeId) : d'.fieldMark? x = d.fieldMark? x := by
  simp only [fieldMark?, wordAttribute?, attributeIn?, h.isWord_eq, h.element?_eq]

/-- The ways to the marks of a field lead over elements. -/
lemma alike (h : d.Recasts d' ids) (hd : d.WellFormed) : Alike d d' Eq := by
  have hsiblings : d'.siblingsOf = d.siblingsOf := by
    funext x
    simp only [siblingsOf, h.parent_eq, h.children_eq]
  constructor
  · exact ⟨fun _ _ _ hx hy => hx.trans hy.symm, fun _ _ _ hx hy => hx.symm.trans hy⟩
  · rfl
  · rintro x _ rfl localName
    exact h.isWord_eq x localName
  · rintro x _ rfl
    exact h.fieldMark?_eq x
  · rintro x _ rfl -
    exact h.textContent_eq hd x
  · rintro x _ rfl
    rw [h.descendants_eq hd, h.isElement_eq, List.forall₂_eq_eq_eq]
  · rintro x _ rfl -
    rw [h.parent_eq]
    exact rel_self Eq.refl _
  · rintro x _ rfl - - -
    rw [followingElements, followingElements, followingSiblings, followingSiblings, hsiblings,
      h.isElement_eq, List.forall₂_eq_eq_eq]
  · rintro x _ rfl - - -
    rw [precedingElements, precedingElements, precedingSiblings, precedingSiblings, hsiblings,
      h.isElement_eq, List.forall₂_eq_eq_eq]

lemma enclosingRun?_eq (h : d.Recasts d' ids) (hd : d.WellFormed) (x : NodeId) :
    d'.enclosingRun? x = d.enclosingRun? x :=
  nearest?_congr hd (fun y _ => h.isWord_eq y "r") (fun y _ => h.parent_eq y) (d.level_le_size x)
    ((d.level_le_size x).trans h.size_eq.ge)

lemma opensIf_eq (h : d.Recasts d' ids) (hd : d.WellFormed) (runs : List NodeId) (index : Nat) :
    d'.opensIf runs index = d.opensIf runs index :=
  (h.alike hd).opensIf_eq (List.forall₂_same.2 fun _ _ => rfl) index

lemma readHeader_eq (h : d.Recasts d' ids) (hd : d.WellFormed) {runs : List NodeId} {index : Nat}
    (hopens : d.opensIf runs index = true) :
    d'.readHeader runs index = d.readHeader runs index := by
  refine (h.alike hd).readHeader_eq (List.forall₂_same.2 fun _ _ => rfl) ?_ hopens
  rintro x _ rfl -
  rw [h.enclosingRun?_eq hd]
  exact rel_self Eq.refl _

/-! ## Texts of runs -/

lemma runText_eq (h : d.Recasts d' ids) (hd : d.WellFormed) (run : NodeId) :
    d'.runText run = d.runText run := by
  rw [runText, runText, h.wordDescendants_eq hd, funext (h.textContent_eq hd)]

/-- What is written as CDATA is no text node of a run any more. -/
lemma runTexts_eq (h : d.Recasts d' ids) (hd : d.WellFormed) (run : NodeId) :
    d'.runTexts run = (d.runTexts run).filter fun entry => entry.1 ∉ ids := by
  have hchildren : d'.children = d.children := funext h.children_eq
  rw [runTexts, runTexts, h.wordDescendants_eq hd, hchildren, List.filter_filterMap]
  refine List.filterMap_congr fun id _ => ?_
  rw [h.kind_eq]
  by_cases hmem : id ∈ ids
  · cases d.kind id <;> simp [hmem, NodeKind.asCData, Option.filter_some]
  · cases d.kind id <;> simp [hmem, Option.filter_some]

end Recasts

end Document

/-! ## The course of a field -/

/-- The markers of pieces, in order. -/
def Piece.markers (pieces : List Piece) : List Marker :=
  pieces.filterMap fun
    | .text _ => none
    | .marker found => some found

lemma Piece.markers_ofText_of_free {text : List Char} (h : Marker.occursIn text = false) :
    markers (ofText text) = [] := by
  rw [ofText_of_cut?_none (Marker.occursIn_eq_false_iff.1 h)]
  rfl

namespace IfContent

/-- Whether two contents are at the same point of a field, whatever is in their branches. -/
structure SameCourse (content content' : IfContent) : Prop where
  inTrue_eq : content'.inTrue = content.inTrue
  seenElse_eq : content'.seenElse = content.seenElse
  isClosed_eq : content'.isClosed = content.isClosed

variable {content content' : IfContent}

lemma SameCourse.refl (content : IfContent) : SameCourse content content :=
  ⟨rfl, rfl, rfl⟩

lemma SameCourse.symm (h : SameCourse content content') : SameCourse content' content :=
  ⟨h.inTrue_eq.symm, h.seenElse_eq.symm, h.isClosed_eq.symm⟩

lemma SameCourse.trans {content'' : IfContent} (h : SameCourse content content')
    (h' : SameCourse content' content'') : SameCourse content content'' :=
  ⟨h'.inTrue_eq.trans h.inTrue_eq, h'.seenElse_eq.trans h.seenElse_eq,
    h'.isClosed_eq.trans h.isClosed_eq⟩

lemma sameCourse_add (content : IfContent) (entry : BranchEntry) :
    SameCourse content (content.add entry) := by
  unfold add
  split <;> exact ⟨rfl, rfl, rfl⟩

lemma sameCourse_addRun (content : IfContent) (options : Options) (run : NodeId) (text : String) :
    SameCourse content (content.addRun options run text) := by
  unfold addRun
  split <;> exact content.sameCourse_add _

lemma sameCourse_addFragment (content : IfContent) (options : Options) (text : List Char) :
    SameCourse content (content.addFragment options text) := by
  unfold addFragment
  split
  · exact .refl content
  · exact content.sameCourse_add _

lemma SameCourse.addMarker? (h : SameCourse content content') (options : Options)
    (marker : Marker) : Option.Rel SameCourse (content.addMarker? options marker)
      (content'.addMarker? options marker) := by
  unfold IfContent.addMarker?
  rw [h.isClosed_eq, h.seenElse_eq, h.inTrue_eq]
  split
  · exact .some h
  · split
    · exact .some ⟨rfl, rfl, rfl⟩
    · split
      · exact .none
      · exact .some ⟨rfl, rfl, rfl⟩
    · exact .some ⟨rfl, rfl, rfl⟩

/-- Reads markers only. -/
def addMarkers? (options : Options) : IfContent → List Marker → Option IfContent
  | content, [] => some content
  | content, marker :: markers =>
    (content.addMarker? options marker).bind fun after => addMarkers? options after markers

/-- The markers alone decide what course the reading of pieces takes. -/
lemma SameCourse.addPieces? (h : SameCourse content content') (options : Options)
    (pieces : List Piece) : Option.Rel SameCourse ((addPieces? options content pieces).map Prod.snd)
      (addMarkers? options content' (Piece.markers pieces)) := by
  induction pieces generalizing content content' with
  | nil => exact .some h
  | cons piece pieces ih =>
    cases piece with
    | text text =>
      have hfragment := (content.sameCourse_addFragment options text).symm.trans h
      simpa [IfContent.addPieces?, Piece.markers, Function.comp_def] using ih hfragment
    | marker marker =>
      rw [IfContent.addPieces?]
      show Option.Rel SameCourse _ (addMarkers? options content' (marker :: Piece.markers pieces))
      rw [addMarkers?]
      have hmarker := h.addMarker? options marker
      generalize content.addMarker? options marker = read at hmarker ⊢
      generalize content'.addMarker? options marker = read' at hmarker ⊢
      cases hmarker with
      | none => exact .none
      | some hafter => exact ih hafter

/-- Texts without markers that are left out do not change the course. -/
lemma SameCourse.addMarkerRun? (h : SameCourse content content') (options : Options) (run : NodeId)
    {texts texts' : List String}
    (hmarkers : Piece.markers (texts'.flatMap fun text => Piece.ofText text.toList) =
      Piece.markers (texts.flatMap fun text => Piece.ofText text.toList)) :
    Option.Rel SameCourse (content.addMarkerRun? options run texts)
      (content'.addMarkerRun? options run texts') := by
  have hleft := h.addPieces? options
    (texts.flatMap fun text => Piece.ofText text.toList)
  have hright := (SameCourse.refl content').addPieces? options
    (texts'.flatMap fun text => Piece.ofText text.toList)
  rw [hmarkers] at hright
  unfold IfContent.addMarkerRun?
  rcases rel_iff.1 hleft with ⟨hnone, hnone'⟩ | ⟨after, middle, hafter, hmiddle, hsame⟩
  · rw [hnone'] at hright
    rw [Option.map_eq_none_iff.1 hnone, Option.map_eq_none_iff.1 ((rel_iff.1 hright).resolve_right
      fun ⟨_, _, _, hsome, _⟩ => nomatch hsome).1]
    exact .none
  · rw [hmiddle] at hright
    rcases rel_iff.1 hright with ⟨-, hnone⟩ | ⟨after', middle', hafter', hmiddle', hsame'⟩
    · cases hnone
    · cases hmiddle'
      obtain ⟨read, hread, rfl⟩ := Option.map_eq_some_iff.1 hafter
      obtain ⟨read', hread', rfl⟩ := Option.map_eq_some_iff.1 hafter'
      rw [hread, hread']
      have hreads := hsame.trans hsame'.symm
      exact .some ⟨hreads.inTrue_eq, hreads.seenElse_eq, hreads.isClosed_eq⟩

end IfContent

namespace Document

open IfContent

variable {d d' : Document} {options : Options} {runs ids : List NodeId}

/-! ## Fields -/

/-- Whether no marker of the runs is in one of some nodes. -/
def FreeOfMarkers (d : Document) (runs ids : List NodeId) : Prop :=
  ∀ run ∈ runs, ∀ entry ∈ d.runTexts run, entry.1 ∈ ids → Marker.occursIn entry.2.toList = false

/-- Whether none of some nodes is in the text of a run with markers. -/
def ApartFromMarkers (d : Document) (runs ids : List NodeId) : Prop :=
  ∀ run ∈ runs, d.hasMarker run = true → ∀ entry ∈ d.runTexts run, entry.1 ∉ ids

lemma ApartFromMarkers.freeOfMarkers (h : d.ApartFromMarkers runs ids) :
    d.FreeOfMarkers runs ids := by
  intro run hrun entry hentry hmem
  refine Bool.eq_false_iff.2 fun hoccurs => ?_
  exact h run hrun (List.any_eq_true.2 ⟨entry, hentry, hoccurs⟩) entry hentry hmem

namespace Recasts

lemma hasMarker_eq (h : d.Recasts d' ids) (hd : d.WellFormed) (hfree : d.FreeOfMarkers runs ids)
    {run : NodeId} (hrun : run ∈ runs) : d'.hasMarker run = d.hasMarker run := by
  rw [hasMarker, hasMarker, h.runTexts_eq hd, List.any_filter, Bool.eq_iff_iff, List.any_eq_true,
    List.any_eq_true]
  refine exists_congr fun entry => and_congr_right fun hentry => ?_
  rw [Bool.and_eq_true, decide_eq_true_eq]
  refine and_iff_right_of_imp fun hoccurs hmem => ?_
  exact Bool.false_ne_true ((hfree run hrun entry hentry hmem).symm.trans hoccurs)

/-- Where no marker is written as CDATA, fields are read on the same course. -/
lemma agree_course (h : d.Recasts d' ids) (hd : d.WellFormed) (hfree : d.FreeOfMarkers runs ids)
    (options : Options) :
    Agree d d' options runs SameCourse (fun field field' => field'.next = field.next) where
  opensIf_eq := h.opensIf_eq hd runs
  readHeader_eq _ hopens := h.readHeader_eq hd hopens
  hasMarker_eq _ hrun := h.hasMarker_eq hd hfree hrun
  start := .refl _
  isClosed_eq hcontent := hcontent.isClosed_eq
  next_eq hfield := hfield
  nested hcontent _ :=
    ((sameCourse_add _ _).symm.trans hcontent).trans (sameCourse_add _ _)
  markers {_ _ run} hrun _ hcontent := by
    refine hcontent.addMarkerRun? options run ?_
    rw [h.runTexts_eq hd, List.flatMap_map, List.flatMap_map, Piece.markers, Piece.markers,
      List.filterMap_flatMap, List.filterMap_flatMap]
    refine flatMap_filter_of_nil fun entry hentry hout => ?_
    have hmem : entry.1 ∈ ids := by simpa using hout
    exact Piece.markers_ofText_of_free (hfree run hrun entry hentry hmem)
  plain _ _ hcontent :=
    ((sameCourse_addRun _ _ _ _).symm.trans hcontent).trans (sameCourse_addRun _ _ _ _)
  span := fun _ _ _ {_ _} _ => rfl

/-- Where the runs with markers have no CDATA, the same fields are read. -/
lemma agree_eq (h : d.Recasts d' ids) (hd : d.WellFormed) (hplain : d.ApartFromMarkers runs ids)
    (options : Options) :
    Agree d d' options runs (fun content content' => content' = content)
      (fun field field' => field' = field) := by
  refine .of_eq (h.opensIf_eq hd runs) (fun _ hopens => h.readHeader_eq hd hopens)
    (fun run hrun => h.hasMarker_eq hd hplain.freeOfMarkers hrun) (fun run hrun hmarked => ?_)
    fun run _ => h.runText_eq hd run
  rw [h.runTexts_eq hd, List.filter_eq_self.2 fun entry hentry =>
    decide_eq_true (hplain run hrun hmarked entry hentry)]

lemma runs_eq (h : d.Recasts d' ids) (hd : d.WellFormed) : d'.runs = d.runs :=
  h.wordDescendants_eq hd root "r"

lemma ifSpans_course (h : d.Recasts d' ids) (hd : d.WellFormed)
    (hfree : d.FreeOfMarkers d.runs ids) (options : Options) :
    (d'.ifSpans options).1.length = (d.ifSpans options).1.length ∧
      (d'.ifSpans options).2 = (d.ifSpans options).2 := by
  rw [ifSpans, ifSpans, h.runs_eq hd]
  obtain ⟨hfields, hdiagnostics⟩ :=
    (h.agree_course hd hfree options).readIfsFrom (d.runs.length + 1) 0 []
  exact ⟨hfields.length_eq.symm, hdiagnostics⟩

lemma ifSpans_eq (h : d.Recasts d' ids) (hd : d.WellFormed)
    (hplain : d.ApartFromMarkers d.runs ids) (options : Options) :
    d'.ifSpans options = d.ifSpans options := by
  rw [ifSpans, ifSpans, h.runs_eq hd]
  obtain ⟨hfields, hdiagnostics⟩ :=
    (h.agree_eq hd hplain options).readIfsFrom (d.runs.length + 1) 0 []
  refine Prod.ext ?_ hdiagnostics
  exact (List.forall₂_eq_eq_eq ▸ hfields.flip : _ = _)

end Recasts

/-! ## Edits -/

lemma ContentRun.hasMarker_of_mem {nested : Nat → Except IfProblem IfSpan} {index next : Nat}
    {content after : IfContent}
    (h : ContentRun d options runs nested index content next after) {marker : MarkerRun}
    (hmarker : marker ∈ after.markerRuns) :
    marker ∈ content.markerRuns ∨ d.hasMarker marker.run = true := by
  induction h with
  | closed _ => exact .inl hmarker
  | @step index index' next content content' after first rest ih =>
    refine (ih hmarker).elim (fun hmem => ?_) .inr
    cases first with
    | nested _ _ _ _ => exact .inl (by rwa [markerRuns_add] at hmem)
    | plain _ _ _ _ => exact .inl (by rwa [markerRuns_addRun] at hmem)
    | markers _ _ _ marked reads =>
      obtain ⟨sides, hsides⟩ := markerRuns_addMarkerRun? reads
      rw [hsides] at hmem
      refine (List.mem_append.1 hmem).imp_right fun hmem => ?_
      rw [List.mem_singleton.1 hmem]
      exact marked

lemma mem_entriesEdits {context : DataContext} {edit : FieldEdit} {entries : List BranchEntry}
    (h : edit ∈ entriesEdits context entries) :
    ∃ field, .nested field ∈ entries ∧ edit ∈ field.edits context := by
  induction entries with
  | nil => cases h
  | cons entry entries ih =>
    rw [entriesEdits] at h
    rcases List.mem_append.1 h with hentry | hrest
    · cases entry with
      | nested field =>
        rw [BranchEntry.edits] at hentry
        exact ⟨field, List.mem_cons_self, hentry⟩
      | text _ _ => cases hentry
      | run _ => cases hentry
      | fragment _ => cases hentry
    · obtain ⟨field, hfield, hedit⟩ := ih hrest
      exact ⟨field, List.mem_cons_of_mem _ hfield, hedit⟩

/-- Only runs with markers are cleaned. -/
lemma hasMarker_of_mem_edits {context : DataContext} {index : Nat} {field : IfSpan}
    (h : d.readIf options runs index = .ok field) {keep : Side} {marker : MarkerRun}
    (hedit : .clean keep marker ∈ field.edits context) : d.hasMarker marker.run = true := by
  obtain ⟨header, content, next, hheader, hrun, hfield⟩ := readIf_eq_ok_iff.1 h
  have hbounds := readHeader_bounds hheader
  rw [IfSpan.edits_eq] at hedit
  rcases List.mem_append.1 hedit with hedit | hedit
  · obtain ⟨run, -, hrun⟩ := List.mem_map.1 hedit
    cases hrun
  rcases List.mem_append.1 hedit with hedit | hedit
  · obtain ⟨inner, hinner, hedit⟩ := mem_entriesEdits hedit
    have hentry : .nested inner ∈ content.entries := by
      subst hfield
      rcases (spanOf runs index header content next).winning_eq_or context with hwin | hwin
      · rw [hwin] at hinner
        exact List.mem_append_left _ hinner
      · rw [hwin] at hinner
        exact List.mem_append_right _ hinner
    rcases hrun.nested_mem (fun _ _ => readIf_progress) hentry with hstart | ⟨later, hle, reads, -⟩
    · cases hstart
    · exact hasMarker_of_mem_edits reads hedit
  · obtain ⟨marker', hmarker, heq⟩ := List.mem_map.1 hedit
    cases heq
    subst hfield
    exact (hrun.hasMarker_of_mem hmarker).resolve_left List.not_mem_nil
termination_by runs.length - index
decreasing_by
  have hlt : later < runs.length := by
    have hnext := readIf_next_le_length reads
    have hprogress := readIf_progress reads
    omega
  omega

namespace Recasts

lemma replaceTexts (h : d.Recasts d' ids) {texts : List (NodeId × String)} (keep : Side)
    (htexts : ∀ entry ∈ texts, entry.1 ∉ ids ∧ ∃ value, d.kind entry.1 = .text value)
    (sides : List Side) :
    (replaceTexts keep d texts sides).Recasts (replaceTexts keep d' texts sides) ids := by
  induction texts generalizing d d' sides with
  | nil => exact h
  | cons entry texts ih =>
    obtain ⟨id, text⟩ := entry
    obtain ⟨⟨hout, old, hold⟩, hrest⟩ := List.forall_mem_cons.1 htexts
    rw [Document.replaceTexts, Document.replaceTexts]
    set kept := keepPieces keep (Piece.ofText text.toList) sides
    have hold' : d'.kind id = .text old := by rw [h.kind_eq, if_neg hout, hold]
    have hkind := kind_setValue_text (String.ofList kept.1) hold
    have hkind' := kind_setValue_text (String.ofList kept.1) hold'
    have hstep : (d.setValue id (String.ofList kept.1)).2.Recasts
        (d'.setValue id (String.ofList kept.1)).2 ids := by
      refine ⟨by simp [h.size_eq], fun x => by simp [h.parent_eq], fun x => by simp [h.children_eq],
        fun x => ?_⟩
      rw [hkind, hkind', h.kind_eq]
      by_cases hx : x = id
      · subst hx
        simp [hout]
      · simp [hx]
    refine ih hstep (fun entry hentry => ?_) kept.2
    obtain ⟨hout', value, hvalue⟩ := hrest entry hentry
    refine ⟨hout', ?_⟩
    rw [hkind]
    split
    · exact ⟨_, rfl⟩
    · exact ⟨value, hvalue⟩

/-- An edit does the same where the run that it is at has no CDATA. -/
lemma edit (h : d.Recasts d' ids) (hd : d.WellFormed) {edit : FieldEdit}
    (hplain : ∀ run ∈ edit.cleaned, ∀ entry ∈ d.runTexts run, entry.1 ∉ ids) :
    (edit.apply d).Recasts (edit.apply d') ids := by
  cases edit with
  | remove run =>
    refine ⟨?_, fun x => ?_, fun x => ?_, fun x => ?_⟩
    · simp only [FieldEdit.apply, size_remove, h.size_eq]
    · simp only [FieldEdit.apply, parent_remove, h.parent_eq]
    · simp only [FieldEdit.apply, hd.children_remove, (h.wellFormed hd).children_remove,
        h.children_eq]
    · simp only [FieldEdit.apply, kind_remove, h.kind_eq]
  | clean keep marker =>
    have hmarker := hplain marker.run (List.mem_singleton_self _)
    have htexts : d'.runTexts marker.run = d.runTexts marker.run := by
      rw [h.runTexts_eq hd]
      exact List.filter_eq_self.2 fun entry hentry => decide_eq_true (hmarker entry hentry)
    rw [FieldEdit.apply, FieldEdit.apply, cleanMarkerRun, cleanMarkerRun, htexts]
    exact h.replaceTexts keep (fun entry hentry =>
      ⟨hmarker entry hentry, entry.2, (mem_runTexts hentry).2⟩) _

lemma edits (h : d.Recasts d' ids) (hd : d.WellFormed) {edits : List FieldEdit}
    (hplain : ∀ edit ∈ edits, ∀ run ∈ edit.cleaned, ∀ entry ∈ d.runTexts run, entry.1 ∉ ids) :
    (edits.foldl FieldEdit.apply d).Recasts (edits.foldl FieldEdit.apply d') ids := by
  induction edits generalizing d d' with
  | nil => exact h
  | cons edit edits ih =>
    obtain ⟨hedit, hrest⟩ := List.forall_mem_cons.1 hplain
    have hpruned := pruned_edit hd edit
    refine ih (h.edit hd hedit) (hpruned.wellFormed hd) fun other hother run hrun entry hentry => ?_
    obtain ⟨old, hold⟩ := hpruned.exists_old hd hentry
    exact hrest other hother run hrun (entry.1, old) hold

/-- A pass does the same to a document where the runs with markers have no CDATA. -/
lemma processIfFields (h : d.Recasts d' ids) (hd : d.WellFormed)
    (hplain : d.ApartFromMarkers d.runs ids) (context : DataContext) (options : Options) :
    (d.processIfFields context options).document.Recasts
      (d'.processIfFields context options).document ids := by
  rw [processIfFields_document, processIfFields_document, ifEdits, ifEdits,
    h.ifSpans_eq hd hplain options]
  refine h.edits hd fun edit hedit run hrun => ?_
  cases edit with
  | remove run' => cases hrun
  | clean keep marker =>
    obtain rfl := List.mem_singleton.1 hrun
    obtain ⟨field, hfield, hmem⟩ := List.mem_flatMap.1 hedit
    have hmarked := hasMarker_of_mem_edits (readIf_of_mem_ifSpans hfield) hmem
    have hruns : marker.run ∈ d.runs := mem_runs_of_mem_ifEdits hedit
    exact hplain marker.run hruns hmarked

end Recasts

/-- A pass leaves CDATA alone, wherever it is. -/
lemma kind_processIfFields_of_cdata (hd : d.WellFormed) {context : DataContext} {x : NodeId}
    {value : String} (h : d.kind x = .cdata value) :
    (d.processIfFields context options).document.kind x = .cdata value := by
  rw [processIfFields_document]
  rcases (pruned_edits hd (d.ifEdits context options)).kind_eq x with hkind | ⟨-, old, -, hold, -⟩
  · rw [hkind, h]
  · rw [h] at hold
    cases hold

/-- Texts that are written as CDATA.  Without a marker among them a pass finds as many fields and
the same problems, and apart from runs with markers it leaves the same texts as well.  In any case
the pass does not change what is written as CDATA. -/
theorem processIfFields_recast (hd : d.WellFormed) (ids : List NodeId) (context : DataContext)
    (options : Options) :
    let plain := d.processIfFields context options
    let cast := (d.recast ids).processIfFields context options
    (d.FreeOfMarkers d.runs ids →
      cast.count = plain.count ∧ cast.diagnostics = plain.diagnostics) ∧
    (d.ApartFromMarkers d.runs ids → cast.document.textRuns = plain.document.textRuns) ∧
    ∀ id ∈ ids, ∀ value, d.kind id = .text value → cast.document.kind id = .cdata value := by
  intro plain cast
  have h := recasts_recast d ids
  refine ⟨fun hfree => h.ifSpans_course hd hfree options, fun hplain => ?_,
    fun id hid value hkind => ?_⟩
  · have hafter := h.processIfFields hd hplain context options
    have hd' : plain.document.WellFormed := by
      show (d.processIfFields context options).document.WellFormed
      rw [processIfFields_document]
      exact (pruned_edits hd _).wellFormed hd
    exact hafter.textRuns_eq hd'
  · refine kind_processIfFields_of_cdata (h.wellFormed hd) ?_
    rw [h.kind_eq, if_pos hid, hkind]
    rfl

/-- A page with a field, the false branch of which begins in the same run as the true one ends. -/
def sharedRunPage : Document :=
  ofForest [.word "p" [wordDeclaration]
    ((Cell.field ⟨"a", "=", "1"⟩).contents.map RunContent.tree ++
      [RunContent.tree (.text "a"),
        .word "r" [] [.word "t" [] [.node (.text "b%else%") []],
          .word "t" [] [.node (.text "c") []]],
        RunContent.tree (.text "d"), RunContent.tree (.text "%end%")])]

lemma wellFormed_sharedRunPage : sharedRunPage.WellFormed :=
  (displays_ofForest _).wellFormed

/-- A text of each branch is written as CDATA, both in runs without markers. -/
theorem processIfFields_recast_shared :
    let context : DataContext := ⟨.object [("a", .string "1")]⟩
    let plain := sharedRunPage.processIfFields context {}
    let cast := (sharedRunPage.recast [16, 24]).processIfFields context {}
    sharedRunPage.WellFormed ∧ sharedRunPage.kind 16 = .text "a" ∧
      sharedRunPage.kind 24 = .text "d" ∧
      sharedRunPage.FreeOfMarkers sharedRunPage.runs [16, 24] ∧
      sharedRunPage.ApartFromMarkers sharedRunPage.runs [16, 24] ∧
      plain.count = 1 ∧ plain.document.textRuns = ["{IF}", "a", "b"] ∧
      cast.count = plain.count ∧ cast.diagnostics = plain.diagnostics ∧
      cast.document.textRuns = plain.document.textRuns ∧
      cast.document.kind 16 = .cdata "a" := by
  intro context plain cast
  have hplain : sharedRunPage.ApartFromMarkers sharedRunPage.runs [16, 24] := by
    unfold ApartFromMarkers
    decide +kernel
  have hfree := hplain.freeOfMarkers
  obtain ⟨hcourse, htexts, hkept⟩ :=
    processIfFields_recast wellFormed_sharedRunPage [16, 24] context {}
  exact ⟨wellFormed_sharedRunPage, by decide +kernel, by decide +kernel, hfree, hplain,
    by decide +kernel, by decide +kernel, (hcourse hfree).1, (hcourse hfree).2, htexts hplain,
    hkept 16 (by decide) "a" (by decide +kernel)⟩

/-- A text of the branch that is given up stays if it is CDATA in the run with the marker. -/
theorem not_textRuns_recast_shared :
    ¬ ∀ (d : Document) (ids : List NodeId) (context : DataContext) (options : Options),
      d.WellFormed →
      (∀ id ∈ ids, (∃ value, d.kind id = .text value) ∧
        ∃ holder ∈ d.textElements, id ∈ d.children holder) →
      ((d.recast ids).processIfFields context options).document.textRuns =
        (d.processIfFields context options).document.textRuns := by
  intro h
  have hids : ∀ id ∈ [21], (∃ value, sharedRunPage.kind id = .text value) ∧
      ∃ holder ∈ sharedRunPage.textElements, id ∈ sharedRunPage.children holder := by
    intro id hid
    obtain rfl := List.mem_singleton.1 hid
    exact ⟨⟨"c", by decide +kernel⟩, 20, by decide +kernel, by decide +kernel⟩
  have hsame := h sharedRunPage [21] ⟨.object [("a", .string "1")]⟩ {} wellFormed_sharedRunPage hids
  have hplain : (sharedRunPage.processIfFields
      ⟨.object [("a", .string "1")]⟩ {}).document.textRuns = ["{IF}", "a", "b"] := by
    decide +kernel
  have hcast : ((sharedRunPage.recast [21]).processIfFields
      ⟨.object [("a", .string "1")]⟩ {}).document.textRuns = ["{IF}", "a", "b", "c"] := by
    decide +kernel
  rw [hplain, hcast] at hsame
  revert hsame
  decide

end Document

end WordFields
