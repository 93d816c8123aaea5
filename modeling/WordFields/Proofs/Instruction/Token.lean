import WordFields.Instruction.Token
import WordFields.Proofs.Instruction.Operator

/-!
# Tokens without a bound

`Token.tokenizeFrom` bounds its recursion by the length of the text, which each token shortens.
`tokensAt` is the same with the bound gone, and the equations here say what it does at a blank
character, a quote, an operator and a word.
-/

namespace WordFields

open Text

lemma Text.length_lt_of_cut? {c : Char} {text before rest : List Char}
    (h : cut? [c] text = some (before, rest)) : rest.length < text.length := by
  induction text generalizing before with
  | nil => simp [cut?, after?] at h
  | cons b text ih =>
    rw [cut?] at h
    split at h
    next found hafter =>
      cases h
      have heq := after?_eq_some_iff.1 hafter
      rw [List.singleton_append, List.cons.injEq] at heq
      rw [heq.2]
      exact Nat.lt_succ_self _
    next =>
      obtain ⟨⟨before', rest'⟩, hcut, heq⟩ := Option.map_eq_some_iff.1 h
      cases heq
      exact Nat.lt_succ_of_lt (ih hcut)

namespace Operator

lemma length_lt_of_cutSpelling? {text spelling rest : List Char}
    (h : cutSpelling? text = some (spelling, rest)) : rest.length < text.length := by
  obtain ⟨htext, hlongest⟩ := longest_of_cutSpelling? h
  have hne := ne_nil_of_mem_texts hlongest.mem
  rw [String.toList_ofList] at hne
  have hpos := List.length_pos_iff.2 hne
  rw [htext, List.length_append]
  omega

end Operator

namespace Token

lemma cutWord_length_le (text : List Char) : (cutWord text).2.length ≤ text.length := by
  induction text with
  | nil => exact Nat.le_refl _
  | cons c text ih =>
    rw [cutWord]
    split
    · exact Nat.le_refl _
    · exact Nat.le_succ_of_le ih

/-- A text that starts with no blank, quote or operator starts with a word. -/
lemma cutWord_cons {c : Char} {text : List Char} (hblank : isBlank c = false) (hquote : c ≠ '"')
    (hoperator : Operator.cutSpelling? (c :: text) = none) :
    cutWord (c :: text) = (c :: (cutWord text).1, (cutWord text).2) := by
  rw [cutWord, if_neg]
  simp [endsWord, hblank, hquote, hoperator]

lemma tokenizeFrom_congr {steps steps' position : Nat} {text : List Char}
    (h : text.length < steps) (h' : text.length < steps') :
    tokenizeFrom steps position text = tokenizeFrom steps' position text := by
  induction steps generalizing steps' position text with
  | zero => omega
  | succ steps ih =>
    obtain ⟨steps'', rfl⟩ : ∃ steps'', steps' = steps'' + 1 := ⟨steps' - 1, by omega⟩
    cases text with
    | nil => rfl
    | cons c text =>
      rw [List.length_cons] at h h'
      have hrest : ∀ (rest : List Char) (position : Nat), rest.length ≤ text.length →
          tokenizeFrom steps position rest = tokenizeFrom steps'' position rest :=
        fun rest position hle => ih (by omega) (by omega)
      rw [tokenizeFrom, tokenizeFrom]
      split
      next => exact hrest _ _ (Nat.le_refl _)
      next hblank =>
        split
        next hquote =>
          cases hcut : cut? ['"'] text with
          | none => rfl
          | some found =>
            obtain ⟨literal, rest⟩ := found
            simp only [hrest rest _ (Nat.le_of_lt (length_lt_of_cut? hcut))]
        next hquote =>
          cases hoperator : Operator.cutSpelling? (c :: text) with
          | some found =>
            obtain ⟨spelling, rest⟩ := found
            have hlt := Operator.length_lt_of_cutSpelling? hoperator
            rw [List.length_cons] at hlt
            simp only [hrest rest _ (Nat.le_of_lt_succ hlt)]
          | none =>
            rw [Bool.not_eq_true] at hblank
            simp only [cutWord_cons hblank hquote hoperator]
            rw [hrest _ _ (cutWord_length_le text)]

/-- The tokens of a text that starts at a byte position. -/
def tokensAt (position : Nat) (text : List Char) : Except Nat (List Token) :=
  tokenizeFrom (text.length + 1) position text

lemma tokenizeFrom_eq_tokensAt {steps position : Nat} {text : List Char} (h : text.length < steps) :
    tokenizeFrom steps position text = tokensAt position text :=
  tokenizeFrom_congr h (Nat.lt_succ_self _)

lemma tokenize_eq_tokensAt (text : List Char) : tokenize text = tokensAt 0 text :=
  rfl

@[simp] lemma tokensAt_nil (position : Nat) : tokensAt position [] = .ok [] :=
  rfl

lemma tokensAt_blank {c : Char} (h : isBlank c = true) (position : Nat) (text : List Char) :
    tokensAt position (c :: text) = tokensAt (position + c.utf8Size) text := by
  rw [tokensAt, tokenizeFrom, if_pos h, tokenizeFrom_eq_tokensAt (by simp)]

lemma tokensAt_quoted {literal : List Char} (h : '"' ∉ literal) (position : Nat)
    (rest : List Char) :
    tokensAt position ('"' :: (literal ++ '"' :: rest)) =
      let token := spelled .quoted literal ('"' :: literal ++ ['"']) position
      (tokensAt token.stop rest).map (token :: ·) := by
  have hblank : ¬ isBlank '"' = true := by decide
  rw [tokensAt, tokenizeFrom, if_neg hblank, if_pos rfl, cut?_singleton h]
  simp only
  rw [tokenizeFrom_eq_tokensAt (by simp; omega)]

lemma tokensAt_operator {c : Char} {text spelling rest : List Char} (hblank : isBlank c = false)
    (hquote : c ≠ '"') (h : Operator.cutSpelling? (c :: text) = some (spelling, rest))
    (position : Nat) :
    tokensAt position (c :: text) =
      let token := spelled .operator spelling spelling position
      (tokensAt token.stop rest).map (token :: ·) := by
  have hlt := Operator.length_lt_of_cutSpelling? h
  rw [tokensAt, tokenizeFrom, if_neg (by simp [hblank]), if_neg hquote, h]
  simp only
  rw [tokenizeFrom_eq_tokensAt hlt]

lemma tokensAt_word {c : Char} {text : List Char} (hblank : isBlank c = false) (hquote : c ≠ '"')
    (h : Operator.cutSpelling? (c :: text) = none) (position : Nat) :
    tokensAt position (c :: text) =
      let word := c :: (cutWord text).1
      let token := spelled .word word word position
      (tokensAt token.stop (cutWord text).2).map (token :: ·) := by
  have hle := cutWord_length_le text
  rw [tokensAt, tokenizeFrom, if_neg (by simp [hblank]), if_neg hquote, h]
  simp only [cutWord_cons hblank hquote h]
  rw [tokenizeFrom_eq_tokensAt (by simp; omega)]

end Token

end WordFields
