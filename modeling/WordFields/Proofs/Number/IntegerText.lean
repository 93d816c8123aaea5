import WordFields.Number.Rendering
import WordFields.Proofs.Json.Number
import WordFields.Proofs.Number.Numeral
import WordFields.Proofs.Number.Rounding

/-!
# Integers as texts

The text of an integer reads as the double nearest to that integer, whatever its size
(`toDouble_integerText`): printing an integer and reading the digits rounds it as the direct
conversion does.
-/

namespace WordFields

open Text

variable {n : Int} {c : Char}

lemma isDigit_or_eq_minus (h : c ∈ integerText n) : Numeral.isDigit c = true ∨ c = '-' := by
  rw [integerText] at h
  split_ifs at h
  · rcases List.mem_cons.1 h with rfl | hdigit
    · exact .inr rfl
    · exact .inl (Json.isDigit_of_mem_naturalText hdigit)
  · exact .inl (Json.isDigit_of_mem_naturalText h)

lemma not_mem_integerText (h : Numeral.isDigit c = false) (hminus : c ≠ '-') :
    c ∉ integerText n := by
  intro hc
  rcases isDigit_or_eq_minus hc with hdigit | heq
  · exact absurd hdigit (by simp [h])
  · exact hminus heq

lemma integerText_ne_nil (n : Int) : integerText n ≠ [] := by
  rw [integerText]
  split_ifs
  · exact List.cons_ne_nil _ _
  · exact Nat.toDigits_ne_nil

/-- Nothing is trimmed from a text without blank characters. -/
lemma trim_eq_self {text : List Char} (h : ∀ c ∈ text, isBlank c = false) : trim text = text := by
  have hdrop {text : List Char} (h : ∀ c ∈ text, isBlank c = false) : trimStart text = text :=
    trimStart_eq_self fun c hc => h c (List.mem_of_mem_head? hc)
  have hback : trimStart text.reverse = text.reverse :=
    hdrop fun c hc => h c (List.mem_reverse.1 hc)
  rw [trim, hdrop h]
  exact (congrArg List.reverse hback).trans (List.reverse_reverse text)

lemma isBlank_eq_false_of_mem (h : c ∈ integerText n) : isBlank c = false := by
  have hcodes : c.toNat = 45 ∨ 48 ≤ c.toNat ∧ c.toNat ≤ 57 := by
    rcases isDigit_or_eq_minus h with hdigit | rfl
    · right
      simpa [Numeral.isDigit, Char.le_def, UInt32.le_iff_toNat_le] using hdigit
    · exact .inl rfl
  have hranges : ∀ range ∈ blankRanges, range.2 < 45 ∨ 57 < range.1 := by decide
  refine List.any_eq_false.2 fun range hrange => ?_
  have hapart := hranges range hrange
  simp only [Bool.and_eq_true, decide_eq_true_eq]
  omega

/-- The second character of a radix marker is a letter. -/
lemma radixOf?_integerText (n : Int) : Numeral.radixOf? (integerText n) = none := by
  by_contra h
  obtain ⟨⟨radix, digits⟩, hsome⟩ := Option.ne_none_iff_exists'.1 h
  obtain ⟨marker, hmem, htext⟩ := Numeral.radixOf?_eq_some_iff.1 hsome
  have hletters : ∀ entry ∈ Numeral.radixMarkers,
      entry.1.toList.any (fun c => !Numeral.isDigit c && c != '-') = true := by decide
  obtain ⟨c, hc, hletter⟩ := List.any_eq_true.1 (hletters _ hmem)
  rw [Bool.and_eq_true, Bool.not_eq_true', bne_iff_ne] at hletter
  exact not_mem_integerText hletter.1 hletter.2 (htext ▸ List.mem_append_left digits hc)

lemma readSign_integerText (n : Int) :
    Numeral.readSign (integerText n) = (decide (n < 0), naturalText n.natAbs) := by
  rw [integerText]
  split_ifs with hn
  · simp [Numeral.readSign, hn]
  · obtain ⟨c, digits, htext, hc⟩ := Json.exists_naturalText n.natAbs
    have hminus : c ≠ '-' := by
      rintro rfl
      exact absurd hc (by decide)
    have hplus : c ≠ '+' := by
      rintro rfl
      exact absurd hc (by decide)
    simp [Numeral.readSign, htext, hminus, hplus, hn]

lemma decimal?_integerText (n : Int) :
    Numeral.decimal? (integerText n) = some (Double.ofDecimal (n < 0) n.natAbs 0) := by
  have hdigits : ∀ c ∈ naturalText n.natAbs, Numeral.IsDigitOf 10 c := fun _ hc =>
    Numeral.isDigit_iff.1 (Json.isDigit_of_mem_naturalText hc)
  obtain ⟨htake, hdrop⟩ := Numeral.takeWhile_digits hdigits (startsIn_nil _)
  rw [List.append_nil] at htake hdrop
  have hnonempty : (naturalText n.natAbs).isEmpty = false :=
    List.isEmpty_eq_false_iff.2 Nat.toDigits_ne_nil
  simp [Numeral.decimal?, readSign_integerText, htake, hdrop, hnonempty, Numeral.readFraction,
    Numeral.readExponent?, Json.ofDigits_naturalText]

/-- Printing an integer and reading the digits rounds it as the direct conversion does. -/
theorem toDouble_integerText (n : Int) : Numeral.toDouble (integerText n) = Double.ofInt n := by
  have htrim : trim (integerText n) = integerText n :=
    trim_eq_self fun _ => isBlank_eq_false_of_mem
  have hinfinity : trim (integerText n) ∉
      ["Infinity", "+Infinity", "-Infinity"].map String.toList := by
    rw [htrim]
    intro hmem
    have hletter : ∀ text ∈ ["Infinity", "+Infinity", "-Infinity"].map String.toList,
        'I' ∈ text := by decide
    exact not_mem_integerText (by decide) (by decide) (hletter _ hmem)
  have hempty : trim (integerText n) ≠ [] := by
    rw [htrim]
    exact integerText_ne_nil n
  rw [Numeral.toDouble_eq hempty hinfinity, htrim, radixOf?_integerText,
    decimal?_integerText, Option.getD_some, Double.ofDecimal_zero]
  rfl

end WordFields
