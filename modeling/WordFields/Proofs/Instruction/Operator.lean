import WordFields.Instruction.Operator
import WordFields.Proofs.Text.Search
import WordFields.Text.Blank

/-!
# The longest spelling

The list of spellings has the longer ones first.  So the spelling that `Operator.cutSpelling?` finds
at the start of a text is the longest one there (`longest_of_cutSpelling?`).
-/

namespace WordFields

open Text

namespace Operator

/-- The eight spellings. -/
def texts : List String :=
  spellings.map Prod.fst

/-- A text begins with a spelling. -/
def Begins (text : List Char) : Prop :=
  ∃ spelling ∈ texts, spelling.toList <+: text

/-- The longest of the spellings with which a text begins. -/
structure Longest (spelling : String) (text : List Char) : Prop where
  mem : spelling ∈ texts
  begins : spelling.toList <+: text
  longest : ∀ other ∈ texts, other.toList <+: text → other.length ≤ spelling.length

variable {text rest : List Char} {spelling : String}

lemma Longest.begins_text (h : Longest spelling text) : Begins text :=
  ⟨spelling, h.mem, h.begins⟩

/-- A text has at most one longest spelling. -/
lemma Longest.unique {spelling' : String} (h : Longest spelling text)
    (h' : Longest spelling' text) : spelling = spelling' := by
  have hlength : spelling.toList.length = spelling'.toList.length := by
    have hle := h.longest spelling' h'.mem h'.begins
    have hle' := h'.longest spelling h.mem h.begins
    rw [String.length_toList, String.length_toList]
    omega
  have hstarts := List.prefix_of_prefix_length_le h.begins h'.begins (Nat.le_of_eq hlength)
  exact String.toList_injective (hstarts.eq_of_length hlength)

lemma cutSpelling?_eq (text : List Char) :
    cutSpelling? text = spellings.findSome? fun operator =>
      (after? operator.1.toList text).map fun rest => (operator.1.toList, rest) :=
  rfl

lemma cutSpelling?_eq_none_iff : cutSpelling? text = none ↔ ¬ Begins text := by
  rw [cutSpelling?_eq, List.findSome?_eq_none_iff]
  constructor
  · rintro h ⟨spelling, hmem, rest, rfl⟩
    obtain ⟨operator, hoperator, rfl⟩ := List.mem_map.1 hmem
    have hnone := h operator hoperator
    rw [after?_append] at hnone
    cases hnone
  · rintro h operator hoperator
    rw [Option.map_eq_none_iff, Option.eq_none_iff_forall_not_mem]
    intro rest hrest
    exact h ⟨operator.1, List.mem_map_of_mem hoperator, rest, (after?_eq_some_iff.1 hrest).symm⟩

/-- The spelling that is found is the longest one: those before it in the list are not there, and
those after it are no longer. -/
lemma longest_of_cutSpelling? {found : List Char} (h : cutSpelling? text = some (found, rest)) :
    text = found ++ rest ∧ Longest (String.ofList found) text := by
  rw [cutSpelling?_eq] at h
  obtain ⟨before, operator, after, hspellings, hfound, hnone⟩ := List.findSome?_eq_some_iff.1 h
  obtain ⟨_, hafter, heq⟩ := Option.map_eq_some_iff.1 hfound
  cases heq
  have htext := after?_eq_some_iff.1 hafter
  have hmem : operator ∈ spellings := by
    rw [hspellings]
    simp
  rw [String.ofList_toList]
  refine ⟨htext, List.mem_map_of_mem hmem, ⟨rest, htext.symm⟩, ?_⟩
  rintro _ hother ⟨tail, htail⟩
  obtain ⟨other, hlisted, rfl⟩ := List.mem_map.1 hother
  rw [hspellings, List.mem_append, List.mem_cons] at hlisted
  rcases hlisted with hbefore | rfl | hbehind
  · have hmissing := hnone other hbefore
    rw [← htail, after?_append] at hmissing
    cases hmissing
  · exact Nat.le_refl _
  · have hsorted : spellings.Pairwise fun operator later =>
        later.1.length ≤ operator.1.length := by decide
    rw [hspellings, List.pairwise_append, List.pairwise_cons] at hsorted
    exact hsorted.2.1.1 other hbehind

lemma Longest.cutSpelling? (h : Longest spelling (spelling.toList ++ rest)) :
    cutSpelling? (spelling.toList ++ rest) = some (spelling.toList, rest) := by
  cases hcut : Operator.cutSpelling? (spelling.toList ++ rest) with
  | none => exact absurd h.begins_text (cutSpelling?_eq_none_iff.1 hcut)
  | some cut =>
    obtain ⟨found, rest'⟩ := cut
    obtain ⟨htext, hfound⟩ := longest_of_cutSpelling? hcut
    obtain rfl : found = spelling.toList := by rw [h.unique hfound, String.toList_ofList]
    rw [List.append_cancel_left htext]

/-! ## What a spelling consists of -/

lemma ne_nil_of_mem_texts (h : spelling ∈ texts) : spelling.toList ≠ [] := by
  have hall : ∀ spelling ∈ texts, spelling.toList ≠ [] := by decide
  exact hall spelling h

lemma not_blank_of_mem_texts (h : spelling ∈ texts) {c : Char} (hc : c ∈ spelling.toList) :
    isBlank c = false ∧ c ≠ '"' := by
  have hall : (texts.all fun spelling =>
      spelling.toList.all fun c => !isBlank c && c != '"') = true := by decide
  have hchar := List.all_eq_true.1 (List.all_eq_true.1 hall spelling h) c hc
  simpa using hchar

end Operator

end WordFields
