import WordFields.Proofs.Field.Rendering

/-!
# Runs of content

How a run of a page acts on the content of a field, for the two kinds of run that a template has
when every piece is in a run of its own: a run with a text of the template adds that text, and a run
with a marker acts as this marker.
-/

namespace WordFields

namespace Marker

/-- The marker as the text of a run. -/
def text (marker : Marker) : String :=
  String.ofList marker.spelling

end Marker

namespace IfContent

/-! ## Entries -/

/-- Adds entries to the branch that is being read. -/
def addAll (content : IfContent) (entries : List BranchEntry) : IfContent :=
  entries.foldl add content

@[simp] lemma addAll_nil (content : IfContent) : content.addAll [] = content :=
  rfl

@[simp] lemma addAll_cons (content : IfContent) (entry : BranchEntry)
    (entries : List BranchEntry) :
    content.addAll (entry :: entries) = (content.add entry).addAll entries :=
  rfl

@[simp] lemma isClosed_add (content : IfContent) (entry : BranchEntry) :
    (content.add entry).isClosed = content.isClosed := by
  unfold add
  split <;> rfl

lemma addAll_of_inTrue {content : IfContent} (h : content.inTrue = true)
    (entries : List BranchEntry) :
    content.addAll entries = { content with ifTrue := content.ifTrue ++ entries } := by
  induction entries generalizing content with
  | nil => simp
  | cons entry entries ih =>
    have hadd : content.add entry = { content with ifTrue := content.ifTrue ++ [entry] } := by
      simp [add, h]
    rw [addAll_cons, hadd, @ih { content with ifTrue := content.ifTrue ++ [entry] } h]
    simp

lemma addAll_of_inFalse {content : IfContent} (h : content.inTrue = false)
    (entries : List BranchEntry) :
    content.addAll entries = { content with ifFalse := content.ifFalse ++ entries } := by
  induction entries generalizing content with
  | nil => simp
  | cons entry entries ih =>
    have hadd : content.add entry = { content with ifFalse := content.ifFalse ++ [entry] } := by
      simp [add, h]
    rw [addAll_cons, hadd, @ih { content with ifFalse := content.ifFalse ++ [entry] } h]
    simp

/-! ## Texts and markers -/

variable {options : Options} {content after : IfContent}

lemma addRun_of_contentText (hoptions : options.ifPlaceholder = shownResult) {text : String}
    (h : ContentText text) (run : NodeId) :
    content.addRun options run text = content.add (.text run text) := by
  have hempty : text.isEmpty = false := by
    rw [← Bool.not_eq_true, String.isEmpty_iff]
    exact h.ne_empty
  have hshown : isPlaceholder options text.toList = false := by
    rw [isPlaceholder, hoptions, beq_eq_false_iff_ne]
    exact h.not_shown
  rw [addRun, hempty, hshown]
  rfl

@[simp] lemma addFragment_nil : content.addFragment options [] = content := by
  simp [addFragment, Text.allBlank]

/-- The pieces of a run with just a marker have no text, and both texts beside the marker have a
side. -/
lemma addMarkerRun?_marker {marker : Marker}
    (h : content.addMarker? options marker = some after) (run : NodeId) :
    content.addMarkerRun? options run [marker.text] =
      some { after with
        markerRuns := after.markerRuns ++ [⟨run, [content.side, after.side]⟩] } := by
  have hpieces : [marker.text].flatMap (fun text => Piece.ofText text.toList) =
      [.text [], .marker marker, .text []] := by
    simp [Marker.text, Piece.ofText_marker]
  rw [addMarkerRun?, hpieces]
  simp [addPieces?, h]

end IfContent

namespace Document

variable {d : Document} {options : Options} {runs : List NodeId} {index : Nat} {run : NodeId}

/-! ## Runs with text -/

lemma opensIf_eq_false (hd : d.WellFormed) {text : String} (hrun : runs[index]? = some run)
    (hshows : d.Shows run (RunContent.text text).tree) : d.opensIf runs index = false := by
  have hmark : d.runMark? run = none := Shows.runMark? hd hshows
  rw [opensIf, hrun]
  cases runs[index + 1]? with
  | none => rfl
  | some next => simp [hmark]

lemma hasMarker_eq (hd : d.WellFormed) {text : String}
    (hshows : d.Shows run (RunContent.text text).tree) :
    d.hasMarker run = Marker.occursIn text.toList := by
  obtain ⟨leaf, htexts⟩ := Shows.runTexts hd hshows
  simp [hasMarker, htexts]

variable {nested : Nat → Except IfProblem IfSpan} {content after : IfContent}

/-- A run with a text of a template adds this text. -/
lemma contentStep_text (hd : d.WellFormed) (hoptions : options.ifPlaceholder = shownResult)
    (hopen : content.isClosed = false) {text : String} (htext : ContentText text)
    (hrun : runs[index]? = some run) (hshows : d.Shows run (RunContent.text text).tree) :
    ContentStep d options runs nested index content (index + 1) (content.add (.text run text)) := by
  have hunmarked : d.hasMarker run = false := by
    rw [hasMarker_eq hd hshows, ← Bool.not_eq_true, Marker.occursIn_iff]
    rintro ⟨marker, hmarker⟩
    exact htext.unmarked marker hmarker
  have hstep : ContentStep d options runs nested index content (index + 1)
      (content.addRun options run (d.runText run)) :=
    .plain hopen hrun (opensIf_eq_false hd hrun hshows) hunmarked
  rwa [Shows.runText hd hshows, IfContent.addRun_of_contentText hoptions htext] at hstep

/-- A run with a marker acts as the marker. -/
lemma contentStep_marker (hd : d.WellFormed) (hopen : content.isClosed = false) {marker : Marker}
    (hmarker : content.addMarker? options marker = some after)
    (hrun : runs[index]? = some run) (hshows : d.Shows run (RunContent.text marker.text).tree) :
    ContentStep d options runs nested index content (index + 1)
      { after with markerRuns := after.markerRuns ++ [⟨run, [content.side, after.side]⟩] } := by
  have hmarked : d.hasMarker run = true := by
    rw [hasMarker_eq hd hshows, Marker.occursIn_iff]
    exact ⟨marker, by simp [Marker.text]⟩
  obtain ⟨leaf, htexts⟩ := Shows.runTexts hd hshows
  refine .markers hopen hrun (opensIf_eq_false hd hrun hshows) hmarked ?_
  rw [htexts]
  exact IfContent.addMarkerRun?_marker hmarker run

end Document

end WordFields
