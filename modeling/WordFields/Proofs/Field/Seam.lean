import WordFields.Proofs.Field.Marker

/-!
# Markers across seams

The texts between the markers of a text have no marker in them (`Piece.occursIn_of_mem_texts`).
This is lost when some of them are put together: what is left of `%e%end%nd%` without its marker is
`%end%` again.  `Marker.Straddles` says of a list of texts that a marker begins in one of them and
ends in a later one, and `Marker.occursIn_flatten_iff` that texts without markers have one together
exactly if a marker straddles them.

Deleting the markers of a text and some of the texts between them is a step (`Clipped`) that may be
taken again.  `Clipped.straddles` says what any number of steps can leave behind: a text that still
has a marker shows that one straddles some of the texts between the markers of the first text.
-/

namespace WordFields

namespace Piece

def text? : Piece → Option (List Char)
  | .text content => some content
  | .marker _ => none

/-- The texts among some pieces. -/
def texts (pieces : List Piece) : List (List Char) :=
  pieces.filterMap text?

@[simp] lemma texts_nil : texts [] = [] :=
  rfl

@[simp] lemma texts_cons_text (content : List Char) (pieces : List Piece) :
    texts (.text content :: pieces) = content :: texts pieces :=
  rfl

@[simp] lemma texts_cons_marker (found : Marker) (pieces : List Piece) :
    texts (.marker found :: pieces) = texts pieces :=
  rfl

end Piece

namespace Marker

/-! ## Texts without markers -/

lemma occursIn_eq_false_iff {text : List Char} : occursIn text = false ↔ cut? text = none := by
  rw [occursIn, Option.isSome_eq_false_iff, Option.isNone_iff_eq_none]

/-- A text is cut at its first marker. -/
lemma cut?_before {text before after : List Char} {marker : Marker}
    (h : cut? text = some (before, marker, after)) : cut? before = none := by
  induction text generalizing before with
  | nil => cases h
  | cons c text ih =>
    rw [cut?] at h
    split at h
    next =>
      cases h
      rfl
    next hnone =>
      obtain ⟨⟨before', marker', after'⟩, hcut, heq⟩ := Option.map_eq_some_iff.1 h
      cases heq
      rw [cut?, ih hcut, Option.map_none]
      -- a marker at the start of the part would be one at the start of the whole text
      cases hat : atStart? (c :: before') with
      | none => rfl
      | some found =>
        obtain ⟨early, rest⟩ := found
        have hwhole : c :: text = early.spelling ++ (rest ++ (marker.spelling ++ after)) := by
          rw [← List.append_assoc, ← eq_append_of_atStart? hat, eq_append_of_cut? hcut,
            List.cons_append]
        rw [hwhole, atStart?_append] at hnone
        cases hnone

/-! ## Seams -/

/-- Whether a marker is across some texts that stand one behind the other: it begins in one of them
and ends in a later one. -/
def Straddles (marker : Marker) (texts : List (List Char)) : Prop :=
  ∃ (before middle after : List (List Char)) (front first last back : List Char),
    texts = before ++ (front ++ first) :: (middle ++ (last ++ back) :: after) ∧
      first ≠ [] ∧ last ≠ [] ∧ marker.spelling = first ++ (middle.flatten ++ last)

/-- A text that begins a flattened list ends in one of its members. -/
lemma eq_flatten_of_begins {texts : List (List Char)} {word : List Char}
    (h : word <+: texts.flatten) (hne : word ≠ []) : ∃ middle last back after,
      texts = middle ++ (last ++ back) :: after ∧ last ≠ [] ∧ word = middle.flatten ++ last := by
  induction texts generalizing word with
  | nil => exact absurd (List.prefix_nil.1 h) hne
  | cons text texts ih =>
    obtain ⟨rest, hrest⟩ := h
    rw [List.flatten_cons] at hrest
    rcases List.append_eq_append_iff.1 hrest with ⟨back, htext, -⟩ | ⟨word', hword, htexts⟩
    · exact ⟨[], word, back, texts, by rw [htext, List.nil_append], hne, rfl⟩
    · by_cases hempty : word' = []
      · subst hempty
        rw [List.append_nil] at hword
        exact ⟨[], word, [], texts, by rw [hword, List.append_nil, List.nil_append], hne, rfl⟩
      · obtain ⟨middle, last, back, after, heq, hlast, hword'⟩ := ih ⟨rest, htexts.symm⟩ hempty
        refine ⟨text :: middle, last, back, after, by rw [heq, List.cons_append], hlast, ?_⟩
        rw [hword, hword', List.flatten_cons, List.append_assoc]

/-- Where a text is found in a flattened list, it is in one of its members or goes over a seam. -/
lemma straddles_of_occurs {texts : List (List Char)} {marker : Marker}
    (h : marker.spelling <:+: texts.flatten) :
    (∃ text ∈ texts, marker.spelling <:+: text) ∨ marker.Straddles texts := by
  induction texts with
  | nil => exact absurd (List.infix_nil.1 h) marker.spelling_ne_nil
  | cons text texts ih =>
    rw [List.flatten_cons, List.infix_append_iff_ne_nil] at h
    rcases h with hhead | htail | ⟨first, rest, hfirst, hrest, hspelling, ⟨front, htext⟩, hstart⟩
    · exact .inl ⟨text, List.mem_cons_self, hhead⟩
    · rcases ih htail with ⟨found, hmem, hfound⟩ | ⟨before, hstraddles⟩
      · exact .inl ⟨found, List.mem_cons_of_mem _ hmem, hfound⟩
      · obtain ⟨middle, after, front, first, last, back, heq, hends⟩ := hstraddles
        refine .inr ⟨text :: before, middle, after, front, first, last, back, ?_, hends⟩
        rw [heq, List.cons_append]
    · obtain ⟨middle, last, back, after, htexts, hlast, rfl⟩ := eq_flatten_of_begins hstart hrest
      refine .inr ⟨[], middle, after, front, first, last, back, ?_, hfirst, hlast, hspelling⟩
      rw [← htext, htexts, List.nil_append]

lemma Straddles.infix {texts : List (List Char)} {marker : Marker} (h : marker.Straddles texts) :
    marker.spelling <:+: texts.flatten := by
  obtain ⟨before, middle, after, front, first, last, back, rfl, -, -, hspelling⟩ := h
  refine ⟨before.flatten ++ front, back ++ after.flatten, ?_⟩
  rw [hspelling]
  simp

/-- Texts without markers have one together exactly if it is across a seam. -/
theorem occursIn_flatten_iff {texts : List (List Char)}
    (hfree : ∀ text ∈ texts, occursIn text = false) :
    occursIn texts.flatten = true ↔ ∃ marker : Marker, marker.Straddles texts := by
  rw [occursIn_iff]
  constructor
  · rintro ⟨marker, hoccurs⟩
    refine ⟨marker, (straddles_of_occurs hoccurs).resolve_left ?_⟩
    rintro ⟨text, htext, hfound⟩
    have hoccurs : occursIn text = true := occursIn_iff.2 ⟨marker, hfound⟩
    rw [hfree text htext] at hoccurs
    cases hoccurs
  · rintro ⟨marker, hstraddles⟩
    exact ⟨marker, hstraddles.infix⟩

end Marker

namespace Piece

lemma texts_ofText_of_free {text : List Char} (h : Marker.occursIn text = false) :
    texts (ofText text) = [text] := by
  rw [ofText_of_cut?_none (Marker.occursIn_eq_false_iff.1 h), texts_cons_text, texts_nil]

/-- The texts between the markers of a text have none. -/
theorem occursIn_of_mem_texts {text content : List Char} (h : content ∈ texts (ofText text)) :
    Marker.occursIn content = false := by
  cases hcut : Marker.cut? text with
  | none =>
    rw [ofText_of_cut?_none hcut, texts_cons_text, texts_nil, List.mem_singleton] at h
    rw [h]
    exact Marker.occursIn_eq_false_iff.2 hcut
  | some found =>
    obtain ⟨before, found, after⟩ := found
    rw [ofText_of_cut? hcut, texts_cons_text, texts_cons_marker, List.mem_cons] at h
    rcases h with rfl | hafter
    · exact Marker.occursIn_eq_false_iff.2 (Marker.cut?_before hcut)
    · have hlt : after.length < text.length := length_lt_of_cut? hcut
      exact occursIn_of_mem_texts hafter
termination_by text.length

/-- Of the texts between the markers of a text, some have a marker together exactly if it is across
a seam. -/
lemma occursIn_flatten_iff {text : List Char} {kept : List (List Char)}
    (h : kept.Sublist (texts (ofText text))) :
    Marker.occursIn kept.flatten = true ↔ ∃ marker : Marker, marker.Straddles kept :=
  Marker.occursIn_flatten_iff fun _ hcontent => occursIn_of_mem_texts (h.subset hcontent)

end Piece

/-! ## Clipping a text again and again -/

/-- A text that consists of some of the texts between the markers of another, in their order. -/
def Clipped (old new : List Char) : Prop :=
  ∃ kept : List (List Char), kept.Sublist (Piece.texts (Piece.ofText old)) ∧ new = kept.flatten

namespace Clipped

/-- Clipping a text that has no marker keeps all of it or nothing. -/
lemma eq_or_eq_nil {old new : List Char} (h : Clipped old new)
    (hfree : Marker.occursIn old = false) : new = old ∨ new = [] := by
  obtain ⟨kept, hsublist, rfl⟩ := h
  rw [Piece.texts_ofText_of_free hfree] at hsublist
  rcases List.sublist_singleton.1 hsublist with rfl | rfl
  · exact .inr rfl
  · exact .inl (by simp)

/-- However often a text is clipped: as long as no marker is across some of the texts between its
markers, the later steps find no marker, and all of them together are one step. -/
lemma of_transGen {old new : List Char} (h : Relation.TransGen Clipped old new) :
    Clipped old new ∨
      ∃ kept : List (List Char), kept.Sublist (Piece.texts (Piece.ofText old)) ∧
        ∃ marker : Marker, marker.Straddles kept := by
  induction h with
  | single hstep => exact .inl hstep
  | @tail middle new _ hstep ih =>
    rcases ih with ⟨kept, hsublist, rfl⟩ | hseam
    · by_cases hoccurs : Marker.occursIn kept.flatten = true
      · exact .inr ⟨kept, hsublist, (Piece.occursIn_flatten_iff hsublist).1 hoccurs⟩
      · rcases hstep.eq_or_eq_nil (Bool.eq_false_iff.2 hoccurs) with rfl | rfl
        · exact .inl ⟨kept, hsublist, rfl⟩
        · exact .inl ⟨[], List.nil_sublist _, rfl⟩
    · exact .inr hseam

/-- A marker in a text that was clipped comes from a seam. -/
theorem straddles {old new : List Char} (h : Relation.TransGen Clipped old new)
    (hoccurs : Marker.occursIn new = true) :
    ∃ kept : List (List Char), kept.Sublist (Piece.texts (Piece.ofText old)) ∧
      ∃ marker : Marker, marker.Straddles kept := by
  rcases of_transGen h with ⟨kept, hsublist, rfl⟩ | hseam
  · exact ⟨kept, hsublist, (Piece.occursIn_flatten_iff hsublist).1 hoccurs⟩
  · exact hseam

end Clipped

end WordFields
