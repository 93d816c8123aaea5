import WordFields.Proofs.Field.Marker

/-!
# How a text falls into pieces

A text is cut at its first marker, then what is behind that marker is cut in the same way.  Markers
can overlap, as in `%end%else%`, so where the first one begins decides what the others are.
`Marker.IsFirst` says of a marker in a text that no other one begins before it, whichever it is, and
`Marker.cut?_eq_some_iff` that the search finds this marker and no other.

`Piece.CutsInto` is the loop itself, without a bound on the number of its rounds.  It leads to the
pieces of a text and to nothing else (`Piece.cutsInto_iff`), so what can be said of the pieces is
proved by induction on its rounds.
-/

namespace WordFields

namespace Marker

/-! ## The first marker -/

/-- Whether a text has a marker behind `before`, and no marker begins earlier in it. -/
structure IsFirst (found : Marker) (text before after : List Char) : Prop where
  eq_append : text = before ++ (found.spelling ++ after)
  length_le : ∀ (front : List Char) (other : Marker) (back : List Char),
    text = front ++ (other.spelling ++ back) → before.length ≤ front.length

lemma spelling_append_inj {found found' : Marker} {after after' : List Char}
    (h : found.spelling ++ after = found'.spelling ++ after') : found = found' ∧ after = after' := by
  have hat := atStart?_append found after
  rw [h, atStart?_append] at hat
  cases hat
  exact ⟨rfl, rfl⟩

namespace IsFirst

variable {found found' : Marker} {text before before' after after' : List Char}

lemma unique (h : found.IsFirst text before after) (h' : found'.IsFirst text before' after') :
    before = before' ∧ found = found' ∧ after = after' := by
  have hlength : before.length = before'.length :=
    Nat.le_antisymm (h.length_le _ _ _ h'.eq_append) (h'.length_le _ _ _ h.eq_append)
  obtain ⟨hbefore, hrest⟩ := List.append_inj (h.eq_append.symm.trans h'.eq_append) hlength
  exact ⟨hbefore, spelling_append_inj hrest⟩

lemma occurs (h : found.IsFirst text before after) : found.spelling <:+: text :=
  ⟨before, after, by rw [List.append_assoc, ← h.eq_append]⟩

/-- A marker in front of the first one would begin earlier. -/
lemma not_infix_before (h : found.IsFirst text before after) (other : Marker) :
    ¬ other.spelling <:+: before := by
  rintro ⟨front, back, hbefore⟩
  have hle : before.length ≤ front.length := by
    refine h.length_le front other (back ++ (found.spelling ++ after)) ?_
    rw [h.eq_append, ← hbefore]
    simp only [List.append_assoc]
  have hpos := List.length_pos_iff.2 other.spelling_ne_nil
  have hlength := congrArg List.length hbefore
  rw [List.length_append, List.length_append] at hlength
  omega

lemma cons {c : Char} (h : found.IsFirst text before after) (hat : atStart? (c :: text) = none) :
    found.IsFirst (c :: text) (c :: before) after where
  eq_append := by rw [h.eq_append, List.cons_append]
  length_le front other back heq := by
    cases front with
    | nil =>
      rw [heq, List.nil_append, atStart?_append] at hat
      cases hat
    | cons d front => exact Nat.succ_le_succ (h.length_le front other back (List.cons.inj heq).2)

end IsFirst

lemma isFirst_of_cut? {text before after : List Char} {found : Marker}
    (h : cut? text = some (before, found, after)) : found.IsFirst text before after := by
  induction text generalizing before with
  | nil => cases h
  | cons c text ih =>
    rw [cut?] at h
    split at h
    next hat =>
      cases h
      exact ⟨eq_append_of_atStart? hat, fun _ _ _ _ => Nat.zero_le _⟩
    next hat =>
      obtain ⟨⟨before', found', after'⟩, hcut, heq⟩ := Option.map_eq_some_iff.1 h
      cases heq
      exact (ih hcut).cons hat

/-- A text is cut at the marker that begins first. -/
theorem cut?_eq_some_iff {text before after : List Char} {found : Marker} :
    cut? text = some (before, found, after) ↔ found.IsFirst text before after := by
  refine ⟨isFirst_of_cut?, fun h => ?_⟩
  have hne : cut? text ≠ none := h.eq_append ▸ cut?_ne_none_of_append before found after
  obtain ⟨⟨before', found', after'⟩, hcut⟩ := Option.ne_none_iff_exists'.1 hne
  obtain ⟨rfl, rfl, rfl⟩ := h.unique (isFirst_of_cut? hcut)
  exact hcut

lemma cut?_eq_none_iff {text : List Char} :
    cut? text = none ↔ ∀ marker : Marker, ¬ marker.spelling <:+: text := by
  rw [← not_exists, ← occursIn_iff, occursIn, Bool.not_eq_true, Option.isSome_eq_false_iff,
    Option.isNone_iff_eq_none]

end Marker

namespace Piece

/-! ## The loop -/

/-- The rounds in which a text is cut at its first marker, until what is left has none. -/
inductive CutsInto : List Char → List Piece → Prop
  | last {text : List Char} (free : ∀ marker : Marker, ¬ marker.spelling <:+: text) :
    CutsInto text [.text text]
  | next {text before after : List Char} {found : Marker} {pieces : List Piece}
      (first : found.IsFirst text before after) (rest : CutsInto after pieces) :
    CutsInto text (.text before :: .marker found :: pieces)

lemma cutsInto_ofText (text : List Char) : CutsInto text (ofText text) := by
  cases hcut : Marker.cut? text with
  | none =>
    rw [ofText_of_cut?_none hcut]
    exact .last (Marker.cut?_eq_none_iff.1 hcut)
  | some found =>
    obtain ⟨before, found, after⟩ := found
    have hlt : after.length < text.length := length_lt_of_cut? hcut
    rw [ofText_of_cut? hcut]
    exact .next (Marker.cut?_eq_some_iff.1 hcut) (cutsInto_ofText after)
termination_by text.length

/-- The rounds end, with the pieces of the text. -/
theorem cutsInto_iff {text : List Char} {pieces : List Piece} :
    CutsInto text pieces ↔ pieces = ofText text := by
  constructor
  · intro h
    induction h with
    | last free => rw [ofText_of_cut?_none (Marker.cut?_eq_none_iff.2 free)]
    | next first rest ih => rw [ofText_of_cut? (Marker.cut?_eq_some_iff.2 first), ih]
  · rintro rfl
    exact cutsInto_ofText text

/-! ## The pieces -/

/-- Texts and markers in turns, with a text at both ends. -/
inductive Alternates : List Piece → Prop
  | last (content : List Char) : Alternates [.text content]
  | next (content : List Char) (found : Marker) {pieces : List Piece} (rest : Alternates pieces) :
    Alternates (.text content :: .marker found :: pieces)

namespace CutsInto

variable {text : List Char} {pieces : List Piece}

lemma alternates (h : CutsInto text pieces) : Alternates pieces := by
  induction h with
  | last => exact .last _
  | next _ _ ih => exact .next _ _ ih

lemma flatMap_spelling (h : CutsInto text pieces) : pieces.flatMap spelling = text := by
  induction h with
  | last => simp [spelling]
  | next first _ ih => rw [List.flatMap_cons, List.flatMap_cons, ih, first.eq_append]; rfl

lemma not_infix_of_mem (h : CutsInto text pieces) {content : List Char}
    (hcontent : .text content ∈ pieces) (marker : Marker) : ¬ marker.spelling <:+: content := by
  induction h with
  | last free =>
    obtain rfl : content = _ := by simpa using hcontent
    exact free marker
  | next first _ ih =>
    rcases List.mem_cons.1 hcontent with heq | hcontent
    · cases heq
      exact first.not_infix_before marker
    · exact ih ((List.mem_cons.1 hcontent).resolve_left fun heq => by cases heq)

/-- Every marker is the first one of what is left of the text behind the marker before it. -/
lemma isFirst (h : CutsInto text pieces) {front back : List Piece} {content : List Char}
    {found : Marker} (hpieces : pieces = front ++ .text content :: .marker found :: back) :
    ∃ rest, text = front.flatMap spelling ++ rest ∧
      found.IsFirst rest content (back.flatMap spelling) := by
  induction h generalizing front with
  | last =>
    have hlength := congrArg List.length hpieces
    simp only [List.length_append, List.length_cons, List.length_nil] at hlength
    omega
  | @next text before after _ _ first hrest ih =>
    cases front with
    | nil =>
      cases hpieces
      refine ⟨text, rfl, ?_⟩
      rw [hrest.flatMap_spelling]
      exact first
    | cons piece front =>
      obtain ⟨rfl, hbehind⟩ := List.cons.inj hpieces
      cases front with
      | nil => cases hbehind
      | cons piece front =>
        obtain ⟨rfl, hrest⟩ := List.cons.inj hbehind
        obtain ⟨rest, hafter, hfirst⟩ := ih hrest
        refine ⟨rest, ?_, hfirst⟩
        rw [first.eq_append, hafter, List.flatMap_cons, List.flatMap_cons, List.append_assoc,
          List.append_assoc]
        rfl

lemma exists_marker_iff (h : CutsInto text pieces) :
    (∃ found, .marker found ∈ pieces) ↔ ∃ marker : Marker, marker.spelling <:+: text := by
  cases h with
  | last free => simp [free]
  | next first _ =>
    exact iff_of_true ⟨_, List.mem_cons_of_mem _ List.mem_cons_self⟩ ⟨_, first.occurs⟩

end CutsInto

/-- Cutting a text ends, with texts and markers in turns and a text at both ends, which are the whole
text together.  No text among them has a marker, and each marker is the first one in what is left of
the text behind the marker before it.  There is a marker exactly if the text has the spelling of
one. -/
theorem ofText_leftmost (text : List Char) :
    (∀ pieces, CutsInto text pieces ↔ pieces = ofText text) ∧
    Alternates (ofText text) ∧
    (ofText text).flatMap spelling = text ∧
    (∀ content, .text content ∈ ofText text →
      ¬ "%else%".toList <:+: content ∧ ¬ "%end%".toList <:+: content) ∧
    (∀ front content found back, ofText text = front ++ .text content :: .marker found :: back →
      ∃ rest, text = front.flatMap spelling ++ rest ∧
        found.IsFirst rest content (back.flatMap spelling)) ∧
    ((∃ found, .marker found ∈ ofText text) ↔
      "%else%".toList <:+: text ∨ "%end%".toList <:+: text) := by
  have hcuts : CutsInto text (ofText text) := cutsInto_ofText text
  refine ⟨fun pieces => cutsInto_iff, hcuts.alternates, hcuts.flatMap_spelling,
    fun content hcontent => ?_, fun front content found back hpieces => hcuts.isFirst hpieces, ?_⟩
  · have hfree := hcuts.not_infix_of_mem hcontent
    exact ⟨hfree .elseMarker, hfree .endMarker⟩
  · rw [hcuts.exists_marker_iff]
    constructor
    · rintro ⟨_ | _, hoccurs⟩
      · exact .inl hoccurs
      · exact .inr hoccurs
    · rintro (hoccurs | hoccurs)
      · exact ⟨.elseMarker, hoccurs⟩
      · exact ⟨.endMarker, hoccurs⟩

/-- The `%else%` in this text begins inside of the first marker, so it is not cut. -/
theorem ofText_leftmost_overlapping :
    ofText "a%end%else%%%end%".toList =
      [.text "a".toList, .marker .endMarker, .text "else%%".toList, .marker .endMarker,
        .text []] ∧
    Marker.endMarker.IsFirst "else%%%end%".toList "else%%".toList [] ∧
    ¬ "%else%".toList <:+: "else%%".toList := by
  have hpieces : ofText "a%end%else%%%end%".toList =
      [.text "a".toList, .marker .endMarker] ++
        .text "else%%".toList :: .marker .endMarker :: [.text []] := by decide
  obtain ⟨-, -, -, hfree, hfirst, -⟩ := ofText_leftmost "a%end%else%%%end%".toList
  obtain ⟨rest, htext, hrest⟩ := hfirst _ _ _ _ hpieces
  obtain rfl : "else%%%end%".toList = rest :=
    List.append_cancel_left (show "a%end%".toList ++ _ = "a%end%".toList ++ _ from htext)
  exact ⟨hpieces, hrest, (hfree "else%%".toList (by rw [hpieces]; simp)).1⟩

end Piece

end WordFields
