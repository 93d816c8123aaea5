import Mathlib.Data.List.Basic
import Mathlib.Tactic.Lemma
import WordFields.Markup.Reference

/-!
# References are read as they are written

Text in which characters are replaced by their references stands for the original text.  This holds
for any choice of characters that are replaced, as long as the ampersand is among them, so that
`escapeText` and `escapeValue` are two cases of one statement.
-/

namespace WordFields.Markup

open Text

/-! ## Reading -/

/-- A character that is not an ampersand stands for itself. -/
lemma resolveFrom_cons {c : Char} (h : c ≠ '&') (total position : Nat) (text : List Char) :
    resolveFrom total .outside position (c :: text) =
      (resolveFrom total .outside (position + c.utf8Size) text).map (c :: ·) := by
  rw [resolveFrom, if_neg h]

/-- A name between an ampersand and a semicolon stands for its character. -/
lemma resolveFrom_named {name : String} {c : Char} (h : (name, c) ∈ namedCharacters)
    (total position : Nat) (text : List Char) :
    ∃ next, resolveFrom total .outside position ('&' :: (name.toList ++ ';' :: text)) =
      (resolveFrom total .outside next text).map (c :: ·) := by
  simp only [namedCharacters, List.mem_cons, Prod.mk.injEq, List.not_mem_nil, or_false] at h
  rcases h with ⟨rfl, rfl⟩ | ⟨rfl, rfl⟩ | ⟨rfl, rfl⟩ | ⟨rfl, rfl⟩ | ⟨rfl, rfl⟩ <;>
    exact ⟨_, rfl⟩

lemma exists_of_map_cons {result : Except ReferenceFault (List Char)} {c : Char}
    {resolved : List Char} (h : result.map (c :: ·) = .ok resolved) :
    ∃ rest, resolved = c :: rest := by
  cases result with
  | error fault => cases h
  | ok rest =>
    cases h
    exact ⟨rest, rfl⟩

lemma ne_nil_of_map_cons {result : Except ReferenceFault (List Char)} {c : Char}
    {resolved : List Char} (h : result.map (c :: ·) = .ok resolved) : resolved ≠ [] := by
  obtain ⟨rest, rfl⟩ := exists_of_map_cons h
  exact List.cons_ne_nil _ _

/-- Inside a reference nothing can be read that is empty. -/
lemma ne_nil_of_resolveFrom_inside {total start position : Nat} {name text resolved : List Char}
    (h : resolveFrom total (.inside start name) position text = .ok resolved) : resolved ≠ [] := by
  induction text generalizing position name with
  | nil => cases h
  | cons c text ih =>
    rw [resolveFrom] at h
    split at h
    · cases h
    split at h
    · split at h
      · exact ne_nil_of_map_cons h
      · cases h
    · exact ih h

/-- A text that is not empty stands for one that is not. -/
lemma ne_nil_of_resolve {raw resolved : List Char} (h : resolve raw = .ok resolved)
    (hraw : raw ≠ []) : resolved ≠ [] := by
  obtain ⟨c, text, rfl⟩ := List.exists_cons_of_ne_nil hraw
  rw [resolve, resolveFrom] at h
  split at h
  · exact ne_nil_of_resolveFrom_inside h
  · exact ne_nil_of_map_cons h

/-! ## Writing -/

/-- A way to write single characters: each as itself or by its name, the ampersand by its name. -/
def Escapes (write : Char → List Char) : Prop :=
  ∀ c, (write c = [c] ∧ c ≠ '&') ∨
    ∃ name, (name, c) ∈ namedCharacters ∧ write c = '&' :: (name.toList ++ [';'])

lemma Escapes.resolve_flatMap {write : Char → List Char} (h : Escapes write) (text : List Char) :
    resolve (text.flatMap write) = .ok text := by
  rw [resolve]
  generalize byteLength (text.flatMap write) = total
  generalize 0 = position
  induction text generalizing position with
  | nil => rfl
  | cons c text ih =>
    rw [List.flatMap_cons]
    rcases h c with ⟨hwrite, hc⟩ | ⟨name, hname, hwrite⟩
    · rw [hwrite, List.singleton_append, resolveFrom_cons hc, ih]
      rfl
    · obtain ⟨next, hnext⟩ := resolveFrom_named hname total position (text.flatMap write)
      rw [hwrite, List.cons_append, List.append_assoc, List.singleton_append, hnext, ih]
      rfl

@[simp] theorem resolve_escapeText (text : List Char) : resolve (escapeText text) = .ok text := by
  refine Escapes.resolve_flatMap (fun c => ?_) text
  split_ifs with hlt hgt hamp
  · exact .inr ⟨"lt", by rw [hlt]; decide, rfl⟩
  · exact .inr ⟨"gt", by rw [hgt]; decide, rfl⟩
  · exact .inr ⟨"amp", by rw [hamp]; decide, rfl⟩
  · exact .inl ⟨rfl, hamp⟩

@[simp] theorem resolve_escapeValue (text : List Char) : resolve (escapeValue text) = .ok text := by
  refine Escapes.resolve_flatMap (fun c => ?_) text
  split_ifs with hlt hgt hamp hapos hquot
  · exact .inr ⟨"lt", by rw [hlt]; decide, rfl⟩
  · exact .inr ⟨"gt", by rw [hgt]; decide, rfl⟩
  · exact .inr ⟨"amp", by rw [hamp]; decide, rfl⟩
  · exact .inr ⟨"apos", by rw [hapos]; decide, rfl⟩
  · exact .inr ⟨"quot", by rw [hquot]; decide, rfl⟩
  · exact .inl ⟨rfl, hamp⟩

lemma escapeValue_injective : Function.Injective escapeValue := fun text text' h => by
  have hresolve := resolve_escapeValue text
  rw [h, resolve_escapeValue] at hresolve
  exact (Except.ok.inj hresolve).symm

/-- Escaped text cannot be taken for a tag. -/
lemma lt_not_mem_escapeText (text : List Char) : '<' ∉ escapeText text := by
  rw [escapeText, List.mem_flatMap]
  rintro ⟨c, -, hc⟩
  split_ifs at hc with hlt
  case neg => exact hlt (List.mem_singleton.1 hc).symm
  all_goals exact absurd hc (by decide)

/-- An escaped value cannot be taken to end before its quote, whichever it is. -/
lemma not_mem_escapeValue {c : Char} (h : c = '"' ∨ c = '\x27' ∨ c = '>') (text : List Char) :
    c ∉ escapeValue text := by
  rw [escapeValue, List.mem_flatMap]
  rintro ⟨b, -, hb⟩
  split_ifs at hb with _ hgt _ hapos hquot
  case neg =>
    obtain rfl := List.mem_singleton.1 hb
    rcases h with h | h | h
    · exact hquot h
    · exact hapos h
    · exact hgt h
  all_goals rcases h with rfl | rfl | rfl <;> exact absurd hb (by decide)

lemma escapeText_ne_nil {text : List Char} (h : text ≠ []) : escapeText text ≠ [] := by
  intro hnil
  have hresolve := resolve_escapeText text
  rw [hnil] at hresolve
  exact h (Except.ok.inj hresolve).symm

end WordFields.Markup
