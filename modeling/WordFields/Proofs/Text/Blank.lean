import WordFields.Proofs.Text.Search
import WordFields.Text.Blank

/-!
# Trimmed texts

`Text.trim` takes blank characters away at both ends and nothing else, and a trimmed text has none
left there.
-/

namespace WordFields.Text

variable {text : List Char}

lemma exists_append_trimStart (text : List Char) :
    ∃ front, text = front ++ trimStart text ∧ allBlank front = true := by
  refine ⟨text.takeWhile isBlank, List.takeWhile_append_dropWhile.symm, ?_⟩
  exact List.all_takeWhile

lemma exists_append_trimEnd (text : List Char) :
    ∃ back, text = trimEnd text ++ back ∧ allBlank back = true := by
  obtain ⟨front, htext, hblank⟩ := exists_append_trimStart text.reverse
  refine ⟨front.reverse, ?_, ?_⟩
  · rw [trimEnd, ← List.reverse_append, ← trimStart, ← htext, List.reverse_reverse]
  · rwa [allBlank, List.all_reverse]

/-- A text is its trimmed text between blank ones. -/
lemma exists_append_trim (text : List Char) :
    ∃ front back, text = front ++ (trim text ++ back) ∧ allBlank front = true ∧
      allBlank back = true := by
  obtain ⟨front, hfront, hblank⟩ := exists_append_trimStart text
  obtain ⟨back, hback, hblank'⟩ := exists_append_trimEnd (trimStart text)
  exact ⟨front, back, by rw [trim, ← hback, ← hfront], hblank, hblank'⟩

lemma trimStart_eq_self (h : StartsIn (isBlank · = false) text) : trimStart text = text := by
  cases text with
  | nil => rfl
  | cons c text => exact List.dropWhile_cons_of_neg (by simp [h c rfl])

lemma startsIn_trimStart (text : List Char) : StartsIn (isBlank · = false) (trimStart text) :=
  startsIn_dropWhile isBlank text

/-- Nothing blank is left at the start, also when the end is trimmed as well. -/
lemma startsIn_trim (text : List Char) : StartsIn (isBlank · = false) (trim text) := by
  obtain ⟨back, hback, -⟩ := exists_append_trimEnd (trimStart text)
  have hstart := startsIn_trimStart text
  rw [hback] at hstart
  exact hstart.of_append

lemma trimEnd_trimEnd (text : List Char) : trimEnd (trimEnd text) = trimEnd text := by
  rw [trimEnd, trimEnd, List.reverse_reverse]
  congr 1
  exact trimStart_eq_self (startsIn_trimStart text.reverse)

lemma trim_trim (text : List Char) : trim (trim text) = trim text := by
  rw [trim, trimStart_eq_self (startsIn_trim text), trim, trimEnd_trimEnd]

end WordFields.Text
