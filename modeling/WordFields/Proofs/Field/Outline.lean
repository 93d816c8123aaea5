import Mathlib.Data.List.Chain
import WordFields.Proofs.Field.Content

/-!
# Reading cells

Reading a page only depends on its cells as far as descriptions go.  An `Outline` is the content of
a field without its runs, `Consumes` reads cells into an outline until the field is closed, and
`Found` collects the fields of a sequence of cells.  Both know runs of pieces only: a run passes its
pieces on one after the other, and what is left of a run behind the marker that closes the field is
gone.

The rest of this module compares an outline with the content that a run is read into:
`IfContent.outline_addMarkerRun?` for a run with markers and `IfContent.outline_addRun` for one
without.
-/

namespace WordFields

/-- The content of a field as far as it has been read, without its runs. -/
structure Outline where
  inTrue : Bool := true
  seenElse : Bool := false
  isClosed : Bool := false
  ifTrue : List BranchItem := []
  ifFalse : List BranchItem := []

namespace Outline

/-- Adds an item to the branch that is being read. -/
def add (outline : Outline) (item : BranchItem) : Outline :=
  if outline.inTrue then { outline with ifTrue := outline.ifTrue ++ [item] }
  else { outline with ifFalse := outline.ifFalse ++ [item] }

/-- Reads a piece; `none` if it is an `%else%` too many. -/
def piece? (outline : Outline) (piece : Piece) : Option Outline :=
  if outline.isClosed then some outline
  else
    match piece with
    | .text content => some (outline.add (.text (String.ofList content)))
    | .marker .endMarker => some { outline with isClosed := true }
    | .marker .elseMarker =>
      if outline.seenElse then none
      else some { outline with inTrue := false, seenElse := true }

/-- Reads pieces one after the other. -/
def pieces? : Outline → List Piece → Option Outline
  | outline, [] => some outline
  | outline, piece :: pieces => (outline.piece? piece).bind fun next => next.pieces? pieces

/-- The description of a field with this content. -/
def field (outline : Outline) (condition : Condition) : IfField where
  left := condition.left
  operator := condition.operator
  right := condition.right
  ifTrue := Branch.ofItems outline.ifTrue
  ifFalse := Branch.ofItems outline.ifFalse

end Outline

/-- The outline of the content that has been read so far. -/
def IfContent.outline (content : IfContent) : Outline where
  inTrue := content.inTrue
  seenElse := content.seenElse
  isClosed := content.isClosed
  ifTrue := describeEntries content.ifTrue
  ifFalse := describeEntries content.ifFalse

/-! ## Cells -/

/-- Reading the content of a field from cells until the field is closed. -/
inductive Consumes : List Cell → Outline → List Cell → Outline → Prop where
  | closed {cells : List Cell} {outline : Outline} (isClosed : outline.isClosed = true) :
      Consumes cells outline cells outline
  | field {condition : Condition} {cells cells' rest : List Cell} {outline inner after : Outline}
      (isOpen : outline.isClosed = false) (content : Consumes cells {} cells' inner)
      (next : Consumes cells' (outline.add (.field (inner.field condition))) rest after) :
      Consumes (.field condition :: cells) outline rest after
  | run {pieces : List Piece} {cells rest : List Cell} {outline read after : Outline}
      (isOpen : outline.isClosed = false) (reads : outline.pieces? pieces = some read)
      (next : Consumes cells read rest after) :
      Consumes (.run pieces :: cells) outline rest after

/-- The fields among cells that are not inside others. -/
inductive Found : List Cell → List IfField → Prop where
  | nil : Found [] []
  | field {condition : Condition} {cells cells' : List Cell} {inner : Outline}
      {fields : List IfField} (content : Consumes cells {} cells' inner)
      (next : Found cells' fields) :
      Found (.field condition :: cells) (inner.field condition :: fields)
  | run {pieces : List Piece} {cells : List Cell} {fields : List IfField}
      (next : Found cells fields) : Found (.run pieces :: cells) fields

def Piece.isText : Piece → Bool
  | .text _ => true
  | .marker _ => false

/-- Pieces of one run that are found again in its text: no two texts are next to each other, and
each of them is content also beside markers. -/
structure Separate (pieces : List Piece) : Prop where
  chain : pieces.IsChain fun a b => a.isText = true → b.isText = false
  plain : ∀ content, .text content ∈ pieces → PlainText (String.ofList content)

/-- Cells that are read as they are written. -/
def Cell.Readable : Cell → Prop
  | .field condition => condition.Writable
  | .run pieces => Separate pieces

/-! ## Pieces of a run -/

namespace Separate

variable {pieces : List Piece}

lemma tail {piece : Piece} (h : Separate (piece :: pieces)) : Separate pieces :=
  ⟨h.chain.tail, fun text htext => h.plain text (List.mem_cons_of_mem _ htext)⟩

/-- Without a marker there is one text at most. -/
lemma eq_nil_or_singleton (h : Separate pieces) (hmarker : ∀ marker, .marker marker ∉ pieces) :
    pieces = [] ∨ ∃ text, pieces = [.text text] := by
  match pieces, h, hmarker with
  | [], _, _ => exact .inl rfl
  | .marker marker :: _, _, hmarker => exact absurd List.mem_cons_self (hmarker marker)
  | [.text text], _, _ => exact .inr ⟨text, rfl⟩
  | .text _ :: .text _ :: _, h, _ => cases h.chain.rel_head? rfl rfl
  | .text _ :: .marker marker :: _, _, hmarker =>
    exact absurd (List.mem_cons_of_mem _ List.mem_cons_self) (hmarker marker)

lemma ofText_eq (h : Separate pieces) :
    Piece.ofText (pieces.flatMap Piece.spelling) = Piece.pad [] pieces := by
  have hplain : Piece.Plain pieces := by
    intro text htext
    simpa using (h.plain text htext).plain
  exact Piece.ofText_spelling List.not_mem_nil hplain

lemma occursIn_of_mem {marker : Marker} (h : .marker marker ∈ pieces) :
    Marker.occursIn (pieces.flatMap Piece.spelling) = true := by
  obtain ⟨before, after, rfl⟩ := List.append_of_mem h
  refine Marker.occursIn_iff.2 ⟨marker, before.flatMap Piece.spelling,
    after.flatMap Piece.spelling, ?_⟩
  simp [Piece.spelling]

/-- Text without the character that markers begin with has no marker. -/
lemma occursIn_eq_false (h : Separate pieces) (hmarker : ∀ marker, .marker marker ∉ pieces) :
    Marker.occursIn (pieces.flatMap Piece.spelling) = false := by
  rcases h.eq_nil_or_singleton hmarker with rfl | ⟨text, rfl⟩
  · decide
  · have hunmarked := (h.plain text List.mem_cons_self).contentText.unmarked
    rw [← Bool.not_eq_true, Marker.occursIn_iff]
    rintro ⟨marker, hoccurs⟩
    exact hunmarked marker (by simpa [Piece.spelling] using hoccurs)

end Separate

/-! ## Outlines of content -/

namespace IfContent

lemma describeEntries_append (entries entries' : List BranchEntry) :
    describeEntries (entries ++ entries') = describeEntries entries ++ describeEntries entries' := by
  induction entries with
  | nil => simp [describeEntries]
  | cons entry entries ih => simp [describeEntries, ih]

lemma outline_add (content : IfContent) {entry : BranchEntry} {item : BranchItem}
    (h : entry.describe = [item]) : (content.add entry).outline = content.outline.add item := by
  unfold add Outline.add outline
  by_cases hinTrue : content.inTrue = true
  · simp [hinTrue, describeEntries_append, describeEntries, h]
  · simp [hinTrue, describeEntries_append, describeEntries, h]

lemma outline_add_run (content : IfContent) (run : NodeId) :
    (content.add (.run run)).outline = content.outline := by
  unfold add outline
  split <;> simp [describeEntries_append, describeEntries, BranchEntry.describe]

@[simp] lemma outline_empty : ({} : IfContent).outline = {} := by
  simp [outline, describeEntries]

/-- Text beside markers that is content is read as a piece. -/
lemma outline_addFragment (content : IfContent) {text : List Char}
    (h : PlainText (String.ofList text)) :
    content.outline.piece? (.text text) = some (content.addFragment {} text).outline := by
  have hshown : isPlaceholder {} text = false := by
    rw [isPlaceholder, beq_eq_false_iff_ne]
    simpa [shownResult] using h.not_shown
  have hblank : Text.allBlank text = false := by simpa using h.not_blank
  unfold addFragment Outline.piece?
  by_cases hclosed : content.isClosed = true
  · simp [hclosed, outline]
  · have hadd := @outline_add content (.fragment (String.ofList text)) _ rfl
    simp [hclosed, hshown, hblank, hadd]
    simp [outline, hclosed]

lemma outline_addMarker? (content : IfContent) (marker : Marker) :
    content.outline.piece? (.marker marker) =
      (content.addMarker? {} marker).map IfContent.outline := by
  unfold addMarker? Outline.piece?
  by_cases hclosed : content.isClosed = true
  · simp [outline, hclosed]
  · cases marker with
    | endMarker => simp [outline, hclosed]
    | elseMarker =>
      by_cases helse : content.seenElse = true
      · simp [outline, hclosed, helse]
      · simp [outline, hclosed, helse]

/-- The pieces of a run, found again in its text, are read as pieces. -/
lemma outline_addPieces? {before : List Char} {pieces : List Piece} {content : IfContent}
    (h : Separate pieces)
    (hbefore : before ≠ [] → ∀ text, pieces.head? ≠ some (.text text)) :
    (addPieces? {} content (Piece.pad before pieces)).map (fun read => read.2.outline) =
      (content.addFragment {} before).outline.pieces? pieces := by
  induction pieces generalizing before content with
  | nil => rfl
  | cons piece pieces ih =>
    cases piece with
    | text text =>
      have hnil : before = [] := by
        by_contra hne
        exact hbefore hne text rfl
      subst hnil
      have hhead : text ≠ [] → ∀ text', pieces.head? ≠ some (.text text') := by
        intro _ text' hhead
        cases h.chain.rel_head? hhead rfl
      have hfragment := content.outline_addFragment (h.plain text List.mem_cons_self)
      rw [addFragment_nil, Outline.pieces?, hfragment, Option.bind_some]
      exact ih h.tail hhead
    | marker marker =>
      have hmarker := (content.addFragment {} before).outline_addMarker? marker
      rw [Outline.pieces?, hmarker, Piece.pad, addPieces?, Option.map_map]
      cases hread : (content.addFragment {} before).addMarker? {} marker with
      | none => simp [addPieces?, hread]
      | some marked =>
        have hrest := @ih [] marked h.tail (fun hne => absurd rfl hne)
        rw [addFragment_nil] at hrest
        simpa [addPieces?, hread, Function.comp_def] using hrest

lemma outline_addMarkerRun? {pieces : List Piece} (content : IfContent) (h : Separate pieces)
    (run : NodeId) :
    (content.addMarkerRun? {} run [String.ofList (pieces.flatMap Piece.spelling)]).map outline =
      content.outline.pieces? pieces := by
  have hpieces := @outline_addPieces? [] pieces content h (fun hne => absurd rfl hne)
  rw [addFragment_nil] at hpieces
  rw [← hpieces, addMarkerRun?, List.flatMap_singleton, String.toList_ofList, h.ofText_eq,
    Option.map_map]
  rfl

/-- A run without markers is read as its only piece, if it has one. -/
lemma outline_addRun {pieces : List Piece} {content : IfContent} (hopen : content.isClosed = false)
    (h : Separate pieces) (hmarker : ∀ marker, .marker marker ∉ pieces) (run : NodeId) :
    content.outline.pieces? pieces =
      some (content.addRun {} run (String.ofList (pieces.flatMap Piece.spelling))).outline := by
  rcases h.eq_nil_or_singleton hmarker with rfl | ⟨text, rfl⟩
  · have hrun := content.outline_add_run run
    simpa [Outline.pieces?, addRun] using hrun.symm
  · have hplain : PlainText (String.ofList text) := h.plain text List.mem_cons_self
    have hclosed : content.outline.isClosed = false := hopen
    have hadd : content.addRun {} run (String.ofList text) =
        content.add (.text run (String.ofList text)) :=
      addRun_of_contentText rfl hplain.contentText run
    have houtline : (content.add (.text run (String.ofList text))).outline =
        content.outline.add (.text (String.ofList text)) :=
      content.outline_add rfl
    simp [Outline.pieces?, Outline.piece?, hclosed, Piece.spelling, hadd, houtline]

end IfContent

end WordFields
