import WordFields.Field.Marker
import WordFields.Proofs.Text.Search

/-!
# Cutting texts at markers

A text has a marker exactly if the spelling of one occurs in it (`Marker.occursIn_iff`).  The bound
that `Piece.cutFrom` has on its recursion does not matter, so the pieces of a text are found by
cutting it at its first marker and going on behind it.

Pieces that are written one behind the other are read back up to two things: texts next to each
other become one, and where there is no text between two markers there is an empty one.  `pad` says
which pieces these are, and `ofText_spelling` is the statement, for texts without the character that
markers begin with.
-/

namespace WordFields

open Text

namespace Marker

lemma spelling_ne_nil (marker : Marker) : marker.spelling ≠ [] := by
  cases marker <;> decide

lemma spelling_eq_cons (marker : Marker) : ∃ rest, marker.spelling = '%' :: rest := by
  cases marker
  · exact ⟨"else%".toList, rfl⟩
  · exact ⟨"end%".toList, rfl⟩

/-! ## Markers at the start -/

lemma atStart?_append (marker : Marker) (rest : List Char) :
    atStart? (marker.spelling ++ rest) = some (marker, rest) := by
  cases marker with
  | elseMarker => simp only [atStart?, after?_append]
  | endMarker =>
    have hother : after? elseMarker.spelling (endMarker.spelling ++ rest) = none := rfl
    simp only [atStart?, hother, after?_append, Option.map_some]

lemma eq_append_of_atStart? {text rest : List Char} {marker : Marker}
    (h : atStart? text = some (marker, rest)) : text = marker.spelling ++ rest := by
  unfold atStart? at h
  split at h
  next after hafter =>
    cases h
    exact after?_eq_some_iff.1 hafter
  next =>
    obtain ⟨after, hafter, heq⟩ := Option.map_eq_some_iff.1 h
    cases heq
    exact after?_eq_some_iff.1 hafter

lemma atStart?_cons_of_ne {c : Char} (h : c ≠ '%') (text : List Char) :
    atStart? (c :: text) = none := by
  cases hat : atStart? (c :: text) with
  | none => rfl
  | some found =>
    obtain ⟨marker, rest⟩ := found
    have heq := eq_append_of_atStart? hat
    obtain ⟨tail, htail⟩ := marker.spelling_eq_cons
    rw [htail, List.cons_append] at heq
    exact absurd (List.cons.inj heq).1 h

/-! ## The first marker -/

lemma eq_append_of_cut? {text before after : List Char} {marker : Marker}
    (h : cut? text = some (before, marker, after)) :
    text = before ++ (marker.spelling ++ after) := by
  induction text generalizing before with
  | nil => cases h
  | cons c text ih =>
    unfold cut? at h
    split at h
    next found rest hat =>
      cases h
      exact eq_append_of_atStart? hat
    next =>
      obtain ⟨⟨before', marker', after'⟩, hcut, heq⟩ := Option.map_eq_some_iff.1 h
      cases heq
      rw [List.cons_append, ← ih hcut]

lemma cut?_ne_none_of_append (before : List Char) (marker : Marker) (after : List Char) :
    cut? (before ++ (marker.spelling ++ after)) ≠ none := by
  induction before with
  | nil =>
    obtain ⟨tail, htail⟩ := marker.spelling_eq_cons
    have hat := atStart?_append marker after
    rw [htail, List.cons_append] at hat
    rw [List.nil_append, htail, List.cons_append, cut?, hat]
    exact Option.some_ne_none _
  | cons c before ih =>
    rw [List.cons_append, cut?]
    split
    · exact Option.some_ne_none _
    · rw [Ne, Option.map_eq_none_iff]
      exact ih

/-- A text has a marker exactly if a marker's spelling occurs in it. -/
theorem occursIn_iff {text : List Char} :
    occursIn text = true ↔ ∃ marker : Marker, marker.spelling <:+: text := by
  rw [occursIn, Option.isSome_iff_exists]
  constructor
  · rintro ⟨⟨before, marker, after⟩, hcut⟩
    refine ⟨marker, before, after, ?_⟩
    rw [eq_append_of_cut? hcut, List.append_assoc]
  · rintro ⟨marker, before, after, rfl⟩
    rw [List.append_assoc]
    exact Option.ne_none_iff_exists'.1 (cut?_ne_none_of_append before marker after)

/-- A text is cut at a marker if the character that markers begin with does not stand before it. -/
lemma cut?_append {before : List Char} (h : '%' ∉ before) (marker : Marker) (after : List Char) :
    cut? (before ++ (marker.spelling ++ after)) = some (before, marker, after) := by
  induction before with
  | nil =>
    obtain ⟨tail, htail⟩ := marker.spelling_eq_cons
    have hat := atStart?_append marker after
    rw [htail, List.cons_append] at hat
    rw [List.nil_append, htail, List.cons_append, cut?, hat]
  | cons c before ih =>
    obtain ⟨hc, hbefore⟩ := not_or.1 (mt List.mem_cons.2 h)
    rw [List.cons_append, cut?, atStart?_cons_of_ne (Ne.symm hc), ih hbefore]
    rfl

lemma cut?_eq_none_of_not_mem {text : List Char} (h : '%' ∉ text) : cut? text = none := by
  cases hcut : cut? text with
  | none => rfl
  | some found =>
    obtain ⟨before, marker, after⟩ := found
    obtain ⟨tail, htail⟩ := marker.spelling_eq_cons
    refine absurd ?_ h
    rw [eq_append_of_cut? hcut, htail]
    simp

end Marker

namespace Piece

/-- What a piece is in the text. -/
def spelling : Piece → List Char
  | .text content => content
  | .marker found => found.spelling

/-! ## Cutting at the first marker -/

/-- The text behind a marker is shorter than the whole text. -/
lemma length_lt_of_cut? {text before after : List Char} {found : Marker}
    (h : Marker.cut? text = some (before, found, after)) : after.length < text.length := by
  have hpos := List.length_pos_iff.2 found.spelling_ne_nil
  rw [Marker.eq_append_of_cut? h, List.length_append, List.length_append]
  omega

lemma cutFrom_congr {steps steps' : Nat} {text : List Char} (h : text.length ≤ steps)
    (h' : text.length ≤ steps') : cutFrom steps text = cutFrom steps' text := by
  induction steps generalizing steps' text with
  | zero =>
    obtain rfl : text = [] := List.length_eq_zero_iff.1 (Nat.le_zero.1 h)
    cases steps' <;> rfl
  | succ steps ih =>
    cases hcut : Marker.cut? text with
    | none => cases steps' <;> simp [cutFrom, hcut]
    | some found =>
      obtain ⟨before, found, after⟩ := found
      have hlength : after.length < text.length := length_lt_of_cut? hcut
      obtain ⟨steps'', rfl⟩ : ∃ steps'', steps' = steps'' + 1 := ⟨steps' - 1, by omega⟩
      have hrest : cutFrom steps after = cutFrom steps'' after := ih (by omega) (by omega)
      simp only [cutFrom, hcut, hrest]

lemma ofText_of_cut? {text before after : List Char} {found : Marker}
    (h : Marker.cut? text = some (before, found, after)) :
    ofText text = .text before :: .marker found :: ofText after := by
  have hlength : after.length < text.length := length_lt_of_cut? h
  obtain ⟨steps, hsteps⟩ : ∃ steps, text.length = steps + 1 := ⟨text.length - 1, by omega⟩
  have hcongr : cutFrom steps after = ofText after := cutFrom_congr (by omega) (Nat.le_refl _)
  rw [ofText, hsteps, cutFrom, h]
  simp only [hcongr]

lemma ofText_of_cut?_none {text : List Char} (h : Marker.cut? text = none) :
    ofText text = [.text text] := by
  unfold ofText
  cases text.length <;> simp [cutFrom, h]

/-- The pieces of a text that is a marker. -/
lemma ofText_marker (found : Marker) :
    ofText found.spelling = [.text [], .marker found, .text []] := by
  cases found <;> decide

/-! ## Pieces one behind the other -/

/-- The pieces that are read where a text and some pieces after it were written. -/
def pad : List Char → List Piece → List Piece
  | before, [] => [.text before]
  | before, .text content :: pieces => pad (before ++ content) pieces
  | before, .marker found :: pieces => .text before :: .marker found :: pad [] pieces

/-- Whether no text among the pieces has the character that markers begin with. -/
def Plain (pieces : List Piece) : Prop :=
  ∀ content, .text content ∈ pieces → '%' ∉ content

lemma Plain.tail {piece : Piece} {pieces : List Piece} (h : Plain (piece :: pieces)) :
    Plain pieces :=
  fun content hcontent => h content (List.mem_cons_of_mem _ hcontent)

theorem ofText_spelling {before : List Char} {pieces : List Piece} (hbefore : '%' ∉ before)
    (h : Plain pieces) : ofText (before ++ pieces.flatMap spelling) = pad before pieces := by
  induction pieces generalizing before with
  | nil =>
    rw [List.flatMap_nil, List.append_nil]
    exact ofText_of_cut?_none (Marker.cut?_eq_none_of_not_mem hbefore)
  | cons piece pieces ih =>
    cases piece with
    | text content =>
      have hcontent : '%' ∉ before ++ content := by
        rw [List.mem_append, not_or]
        exact ⟨hbefore, h content List.mem_cons_self⟩
      have hrest := ih hcontent h.tail
      rwa [List.append_assoc] at hrest
    | marker found =>
      have hrest := ih List.not_mem_nil h.tail
      rw [List.nil_append] at hrest
      rw [List.flatMap_cons, spelling, ofText_of_cut? (Marker.cut?_append hbefore found _), hrest,
        pad]

end Piece

end WordFields
