import Mathlib.Data.List.Infix
import Mathlib.Tactic.Lemma
import WordFields.Text.Search

/-!
# What a search finds

`Text.after?` recognises a pattern at the start of a text and nothing else, and `Text.cut?` cuts at
the first occurrence.  The equations here are the only places where the two are opened.
-/

namespace WordFields.Text

/-- A text whose first character, if there is one, has a property. -/
def StartsIn (p : Char → Prop) (text : List Char) : Prop :=
  ∀ c, text.head? = some c → p c

lemma startsIn_nil (p : Char → Prop) : StartsIn p [] := fun _ h => by cases h

@[simp] lemma startsIn_cons {p : Char → Prop} {c : Char} {text : List Char} :
    StartsIn p (c :: text) ↔ p c := by
  simp [StartsIn]

lemma StartsIn.append {p : Char → Prop} {text rest : List Char} (h : StartsIn p text)
    (hrest : StartsIn p rest) : StartsIn p (text ++ rest) := by
  cases text with
  | nil => exact hrest
  | cons c text => exact h

lemma StartsIn.of_append {p : Char → Prop} {text rest : List Char} (h : StartsIn p (text ++ rest)) :
    StartsIn p text := by
  cases text with
  | nil => exact startsIn_nil p
  | cons c text => exact h

lemma startsIn_dropWhile (p : Char → Bool) (text : List Char) :
    StartsIn (p · = false) (text.dropWhile p) := fun c hc => by
  have hnot := List.head?_dropWhile_not p text
  rw [hc] at hnot
  simpa using hnot

@[simp] lemma after?_append (pattern rest : List Char) :
    after? pattern (pattern ++ rest) = some rest := by
  induction pattern with
  | nil => cases rest <;> rfl
  | cons p pattern ih => simp [after?, ih]

lemma after?_eq_some_iff {pattern text rest : List Char} :
    after? pattern text = some rest ↔ text = pattern ++ rest := by
  constructor
  · intro h
    induction pattern generalizing text with
    | nil =>
      cases text <;> simpa [after?] using h
    | cons p pattern ih =>
      cases text with
      | nil => simp [after?] at h
      | cons c text =>
        simp only [after?] at h
        split at h
        next hc => rw [hc, ih h, List.cons_append]
        next => cases h
  · rintro rfl
    exact after?_append pattern rest

lemma after?_cons_of_ne {p c : Char} (h : p ≠ c) (pattern text : List Char) :
    after? (p :: pattern) (c :: text) = none := by
  simp [after?, h]

@[simp] lemma cut?_append_self (pattern rest : List Char) :
    cut? pattern (pattern ++ rest) = some ([], rest) := by
  have hafter := after?_append pattern rest
  cases htext : pattern ++ rest with
  | nil =>
    rw [htext] at hafter
    rw [cut?, hafter]
    rfl
  | cons c text =>
    rw [htext] at hafter
    rw [cut?, hafter]

/-- What precedes the first occurrence of a pattern does not depend on what comes behind it. -/
lemma cut?_eq_some {pattern text before rest : List Char}
    (h : cut? pattern text = some (before, rest)) (rest' : List Char) :
    text = before ++ (pattern ++ rest) ∧
      cut? pattern (before ++ (pattern ++ rest')) = some (before, rest') := by
  induction text generalizing before with
  | nil =>
    rw [cut?] at h
    obtain ⟨found, hfound, heq⟩ := Option.map_eq_some_iff.1 h
    cases heq
    refine ⟨?_, cut?_append_self pattern rest'⟩
    rw [List.nil_append, after?_eq_some_iff.1 hfound]
  | cons c text ih =>
    rw [cut?] at h
    split at h
    next found hfound =>
      cases h
      refine ⟨?_, cut?_append_self pattern rest'⟩
      rw [List.nil_append, after?_eq_some_iff.1 hfound]
    next hnone =>
      obtain ⟨⟨before', found⟩, hfound, heq⟩ := Option.map_eq_some_iff.1 h
      cases heq
      obtain ⟨htext, hcut⟩ := ih hfound
      have hnone' : after? pattern (c :: (before' ++ (pattern ++ rest'))) = none := by
        by_contra hsome
        obtain ⟨tail, htail⟩ := Option.ne_none_iff_exists'.1 hsome
        -- an occurrence that starts before this one ends before it does
        have hshort : pattern <+: c :: (before' ++ pattern) :=
          List.prefix_of_prefix_length_le ⟨tail, (after?_eq_some_iff.1 htail).symm⟩
            ⟨rest', by simp⟩ (by simp; omega)
        obtain ⟨mid, hmid⟩ := hshort
        have hearlier : c :: text = pattern ++ (mid ++ rest) := by
          rw [htext, ← List.append_assoc pattern, hmid]
          simp
        rw [after?_eq_some_iff.2 hearlier] at hnone
        cases hnone
      refine ⟨by rw [htext]; rfl, ?_⟩
      rw [List.cons_append, cut?, hnone', hcut]
      rfl

/-- A text is cut at the first place where a character stands. -/
lemma cut?_singleton {c : Char} {before : List Char} (h : c ∉ before) (rest : List Char) :
    cut? [c] (before ++ c :: rest) = some (before, rest) := by
  induction before with
  | nil => simp [cut?, after?]
  | cons b before ih =>
    obtain ⟨hb, hbefore⟩ := not_or.1 (mt List.mem_cons.2 h)
    rw [List.cons_append, cut?, after?_cons_of_ne hb, ih hbefore]
    rfl

/-- A character that is in neither of two texts ends both at the same place. -/
lemma append_cons_inj {c : Char} {front front' back back' : List Char} (hfront : c ∉ front)
    (hfront' : c ∉ front') (h : front ++ c :: back = front' ++ c :: back') :
    front = front' ∧ back = back' := by
  have hcut := cut?_singleton hfront back
  rw [h, cut?_singleton hfront' back'] at hcut
  cases hcut
  exact ⟨rfl, rfl⟩

lemma not_mem_of_cut?_singleton {c : Char} {text before rest : List Char}
    (h : cut? [c] text = some (before, rest)) : c ∉ before := by
  induction text generalizing before with
  | nil => cases h
  | cons d text ih =>
    rw [cut?] at h
    split at h
    · cases h
      exact List.not_mem_nil
    next hnone =>
      obtain ⟨⟨before', rest'⟩, hcut, heq⟩ := Option.map_eq_some_iff.1 h
      cases heq
      have hne : c ≠ d := by
        rintro rfl
        simp [after?] at hnone
      exact List.not_mem_cons_of_ne_of_not_mem hne (ih hcut)

/-! ## Texts in pieces -/

lemma toList_concat (parts : List String) : (concat parts).toList = parts.flatMap String.toList :=
  String.toList_ofList

lemma toList_concat_ofList (pieces : List (List Char)) :
    (concat (pieces.map String.ofList)).toList = pieces.flatten := by
  rw [toList_concat, List.flatMap_map]
  simp only [String.toList_ofList, List.flatMap_id']

end WordFields.Text
