import WordFields.Instruction.Grammar
import WordFields.Proofs.Instruction.Spacing

/-!
# What an instruction depends on

The grammar looks at the kinds and texts of tokens, not at where they stand.  So tokens that are
alike in this are the same instruction, except for a condition that is not an operator between two
operands: its text is kept as it stands (`conditionOf_cons`), and where it stands in the text is
given by `Spans`.
-/

namespace WordFields

open Text Token

namespace Instruction

variable {tokens tokens' : List Token} {text front body back : List Char}

lemma isWord_congr {token token' : Token} (h : token'.bare = token.bare) (word : String) :
    token'.isWord word = token.isWord word := by
  obtain ⟨hkind, htext⟩ := Prod.mk.inj h
  rw [isWord, isWord, hkind, htext]

lemma isLiteral_congr {token token' : Token} (h : token'.bare = token.bare) (literal : String) :
    token'.isLiteral literal = token.isLiteral literal := by
  obtain ⟨hkind, htext⟩ := Prod.mk.inj h
  rw [isLiteral, isLiteral, hkind, htext]

lemma isOperand_congr {token token' : Token} (h : token'.bare = token.bare) :
    token'.isOperand = token.isOperand := by
  rw [isOperand, isOperand, (Prod.mk.inj h).1]

lemma readMerge_congr (h : tokens'.map bare = tokens.map bare) :
    readMerge tokens' = readMerge tokens := by
  cases tokens with
  | nil => rw [List.map_eq_nil_iff.1 h]
  | cons token tokens =>
    obtain ⟨token', tokens', rfl, htoken, -⟩ := List.map_eq_cons_iff.1 h
    rw [readMerge, readMerge, isOperand_congr htoken, (Prod.mk.inj htoken).2]

/-! ## The tokens before the literals -/

lemma exists_of_beforeLiterals? {condition : List Token}
    (h : beforeLiterals? tokens = some condition) :
    ∃ later, tokens = condition ++ later ∧ later ≠ [] := by
  induction tokens using beforeLiterals?.induct generalizing condition with
  | case1 => cases h
  | case2 => cases h
  | case3 first second rest hliterals =>
    rw [beforeLiterals?, if_pos hliterals] at h
    cases h
    exact ⟨_, rfl, List.cons_ne_nil _ _⟩
  | case4 first second rest hliterals ih =>
    rw [beforeLiterals?, if_neg hliterals] at h
    obtain ⟨condition, hcondition, rfl⟩ := Option.map_eq_some_iff.1 h
    obtain ⟨later, hlater, hne⟩ := ih hcondition
    exact ⟨later, by rw [hlater, List.cons_append], hne⟩

lemma beforeLiterals?_congr (h : tokens'.map bare = tokens.map bare) :
    (beforeLiterals? tokens').map (List.map bare) =
      (beforeLiterals? tokens).map (List.map bare) := by
  induction tokens using beforeLiterals?.induct generalizing tokens' with
  | case1 => rw [List.map_eq_nil_iff.1 h]
  | case2 first =>
    obtain ⟨first', rest', rfl, -, hrest⟩ := List.map_eq_cons_iff.1 h
    rw [List.map_eq_nil_iff.1 hrest]
    rfl
  | case3 first second rest hliterals =>
    obtain ⟨first', rest', rfl, hfirst, hrest⟩ := List.map_eq_cons_iff.1 h
    obtain ⟨second', rest', rfl, hsecond, -⟩ := List.map_eq_cons_iff.1 hrest
    rw [beforeLiterals?, beforeLiterals?, isLiteral_congr hfirst, isLiteral_congr hsecond,
      if_pos hliterals, if_pos hliterals]
  | case4 first second rest hliterals ih =>
    obtain ⟨first', rest', rfl, hfirst, hrest⟩ := List.map_eq_cons_iff.1 h
    obtain ⟨second', rest'', rfl, hsecond, -⟩ := List.map_eq_cons_iff.1 hrest
    have hbehind := ih hrest
    rw [beforeLiterals?, beforeLiterals?, isLiteral_congr hfirst, isLiteral_congr hsecond,
      if_neg hliterals, if_neg hliterals]
    cases hfound : beforeLiterals? (second :: rest) <;>
      cases hfound' : beforeLiterals? (second' :: rest'') <;>
      simp_all

/-- Where the literals are does not depend on where the tokens stand. -/
lemma beforeLiterals?_append {condition condition' later later' : List Token}
    (h : beforeLiterals? (condition ++ later) = some condition)
    (hcondition : condition'.map bare = condition.map bare)
    (hlater : later'.map bare = later.map bare) :
    beforeLiterals? (condition' ++ later') = some condition' := by
  have hbare : (condition' ++ later').map bare = (condition ++ later).map bare := by
    rw [List.map_append, List.map_append, hcondition, hlater]
  have hcongr := beforeLiterals?_congr hbare
  rw [h, Option.map_some] at hcongr
  obtain ⟨found, hfound, hmap⟩ := Option.map_eq_some_iff.1 hcongr
  obtain ⟨rest, hrest, -⟩ := exists_of_beforeLiterals? hfound
  have hlength : condition'.length = found.length := by
    simpa using congrArg List.length (hcondition.trans hmap.symm)
  rw [hfound, List.append_inj_left hrest hlength]

/-! ## Conditions -/

/-- The condition that is an operator between two operands. -/
def splitCondition? : List (TokenKind × String) → Option Condition
  | [left, operator, right] =>
    if left.1 ≠ .operator ∧ operator.1 = .operator ∧ right.1 ≠ .operator then
      some ⟨left.2, operator.2, right.2⟩
    else none
  | _ => none

/-- The operator of a condition is one of its tokens. -/
lemma operator_mem_of_splitCondition? {bares : List (TokenKind × String)} {condition : Condition}
    (h : splitCondition? bares = some condition) : (.operator, condition.operator) ∈ bares := by
  unfold splitCondition? at h
  split at h
  next left operator right =>
    split at h
    next hkinds =>
      cases h
      rw [← hkinds.2.1]
      simp
    next => cases h
  next => cases h

/-- The text of a condition that cannot be split is kept. -/
lemma conditionOf_cons (text : List Char) (first : Token) (rest : List Token) :
    conditionOf text (first :: rest) =
      .ok ((splitCondition? ((first :: rest).map bare)).getD
        ⟨spanText text first (rest.getLastD first), "", ""⟩) := by
  match rest with
  | [] => rfl
  | [_] => rfl
  | [⟨operatorKind, _, _, _⟩, ⟨rightKind, _, _, _⟩] =>
    obtain ⟨leftKind, _, _, _⟩ := first
    cases leftKind <;> cases operatorKind <;> cases rightKind <;> rfl
  | _ :: _ :: _ :: _ => rfl

/-- Tokens that stand in a text where `body` is, from its start to its end. -/
structure Spans (tokens : List Token) (text front body back : List Char) : Prop where
  text_eq : text = front ++ (body ++ back)
  start_eq : tokens.head?.map Token.start = some (byteLength front)
  stop_eq : tokens.getLast?.map Token.stop = some (byteLength front + byteLength body)

lemma Spans.spanText_eq {first : Token} {rest : List Token}
    (h : Spans (first :: rest) text front body back) :
    spanText text first (rest.getLastD first) = String.ofList body := by
  obtain ⟨rfl, hstart, hstop⟩ := h
  rw [List.head?_cons, Option.map_some, Option.some.injEq] at hstart
  rw [List.getLast?_cons, Option.map_some, Option.some.injEq, ← List.getLastD_eq_getLast?] at hstop
  rw [spanText, hstart, hstop, slice_append]

end Instruction

end WordFields
