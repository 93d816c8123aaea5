import WordFields.Instruction.Grammar
import WordFields.Proofs.Instruction.Spacing

/-!
# Spellings of an instruction

The two instructions that are understood may be written in many ways: each operand bare or in
quotes, any blank characters around the parts, anything behind them (`Instruction.Spells`).  All of
them are read as what they say.  An operand may look like a branch literal: what ends the condition
is a pair of literals next to each other, and an operand is next to the operator.
-/

namespace WordFields

open Text Token

namespace Instruction

/-- A text may stand behind an instruction: it is empty or starts with a blank character, and its
quotes come in pairs. -/
def Trails (text : List Char) : Prop :=
  StartsIn (isBlank · = true) text ∧ Even (text.count '"')

/-- The ways to write an instruction. -/
inductive Spells : List Char → Instruction → Prop
  | conditional {leading body trailing : List Char} {leftKind rightKind : TokenKind}
      {left operator right : String} (blank : allBlank leading = true)
      (leftOperand : leftKind ≠ .operator) (rightOperand : rightKind ≠ .operator)
      (spaced : Spaced [(.word, "IF"), (leftKind, left), (.operator, operator),
        (rightKind, right), (.quoted, "%iftrue%"), (.quoted, "%iffalse%")] body)
      (trails : Trails trailing) :
      Spells (leading ++ (body ++ trailing)) (.conditional ⟨left, operator, right⟩)
  | merge {leading body trailing : List Char} {kind : TokenKind} {path : String}
      (blank : allBlank leading = true) (operand : kind ≠ .operator) (nonempty : path ≠ "")
      (spaced : Spaced [(.word, "MERGEFIELD"), (kind, path)] body) (trails : Trails trailing) :
      Spells (leading ++ (body ++ trailing)) (.merge path)

variable {leading body trailing : List Char} {bares : List (TokenKind × String)}

lemma isOperand_of_ne {token : Token} (h : token.kind ≠ .operator) : token.isOperand = true := by
  rw [isOperand]
  cases hkind : token.kind with
  | word => rfl
  | quoted => rfl
  | operator => exact absurd hkind h

/-- The parts of an instruction are its first tokens. -/
lemma exists_tokens (hblank : allBlank leading = true) (hspaced : Spaced bares body)
    (htrails : Trails trailing) :
    ∃ found rest, found.map bare = bares ∧
      tokenize (leading ++ (body ++ trailing)) = .ok (found ++ rest) := by
  obtain ⟨rest, hrest⟩ :=
    (tokensAt_total (byteLength leading + byteLength body) trailing).1 htrails.2
  obtain ⟨found, hfound, hlexes, -⟩ := hspaced.lexes htrails.1 (tokensAt_eq_ok_iff.1 hrest)
  refine ⟨found, rest, hfound, tokensAt_eq_ok_iff.2 (Lexes.blanks hblank ?_)⟩
  rwa [Nat.zero_add]

lemma parse_conditional {leftKind rightKind : TokenKind} {left operator right : String}
    (hblank : allBlank leading = true) (hleft : leftKind ≠ .operator)
    (hright : rightKind ≠ .operator)
    (hspaced : Spaced [(.word, "IF"), (leftKind, left), (.operator, operator),
      (rightKind, right), (.quoted, "%iftrue%"), (.quoted, "%iffalse%")] body)
    (htrails : Trails trailing) :
    parse (leading ++ (body ++ trailing)) = .ok (.conditional ⟨left, operator, right⟩) := by
  obtain ⟨found, rest, hfound, htokens⟩ := exists_tokens hblank hspaced htrails
  simp only [List.map_eq_cons_iff, List.map_eq_nil_iff, bare, Prod.mk.injEq] at hfound
  obtain ⟨keyword, _, rfl, hkeyword, leftToken, _, rfl, hleftToken, operatorToken, _, rfl,
    hoperatorToken, rightToken, _, rfl, hrightToken, ifTrue, _, rfl, hifTrue, ifFalse, _, rfl,
    hifFalse, rfl⟩ := hfound
  have hmerge : keyword.isWord mergeKeyword = false := by
    simp [isWord, hkeyword, mergeKeyword]
  have hif : keyword.isWord ifKeyword = true := by
    simp [isWord, hkeyword, ifKeyword]
  have hleftOperand := isOperand_of_ne (hleftToken.1 ▸ hleft)
  have hrightOperand := isOperand_of_ne (hrightToken.1 ▸ hright)
  -- no two literals are next to each other before the branch literals
  have hbefore : beforeLiterals? (leftToken :: operatorToken :: rightToken :: ifTrue :: ifFalse ::
      rest) = some [leftToken, operatorToken, rightToken] := by
    simp [beforeLiterals?, isLiteral, hoperatorToken, hifTrue, hifFalse, trueLiteral, falseLiteral]
  have hcondition : conditionOf (leading ++ (body ++ trailing))
      [leftToken, operatorToken, rightToken] = .ok ⟨left, operator, right⟩ := by
    simp [conditionOf, hleftOperand, hrightOperand, hleftToken, hoperatorToken, hrightToken]
  rw [parse, htokens]
  simp only [List.cons_append, List.nil_append, hmerge, hif, if_true, Bool.false_eq_true,
    if_false, readConditional, hbefore, hcondition]
  rfl

lemma parse_merge {kind : TokenKind} {path : String} (hblank : allBlank leading = true)
    (hkind : kind ≠ .operator) (hpath : path ≠ "")
    (hspaced : Spaced [(.word, "MERGEFIELD"), (kind, path)] body) (htrails : Trails trailing) :
    parse (leading ++ (body ++ trailing)) = .ok (.merge path) := by
  obtain ⟨found, rest, hfound, htokens⟩ := exists_tokens hblank hspaced htrails
  simp only [List.map_eq_cons_iff, List.map_eq_nil_iff, bare, Prod.mk.injEq] at hfound
  obtain ⟨keyword, _, rfl, hkeyword, name, _, rfl, hname, rfl⟩ := hfound
  have hmerge : keyword.isWord mergeKeyword = true := by
    simp [isWord, hkeyword, mergeKeyword]
  have hoperand := isOperand_of_ne (hname.1 ▸ hkind)
  rw [parse, htokens]
  simp [hmerge, readMerge, hoperand, hname, hpath]

/-- Every spelling of an instruction is read as that instruction. -/
theorem parse_of_spells {text : List Char} {instruction : Instruction}
    (h : Spells text instruction) : parse text = .ok instruction := by
  cases h with
  | conditional blank leftOperand rightOperand spaced trails =>
    exact parse_conditional blank leftOperand rightOperand spaced trails
  | merge blank operand nonempty spaced trails =>
    exact parse_merge blank operand nonempty spaced trails

/-- Both operands look like branch literals, and so does what stands behind the instruction; and a
path in quotes between blank characters of other kinds. -/
theorem parse_of_spells_literals :
    let text :=
      " IF \"%iftrue%\"  <> %iffalse%\t\"%iftrue%\" \"%iffalse%\" \"%iftrue%\" \"%iffalse%\"".toList
    let instruction : Instruction := .conditional ⟨"%iftrue%", "<>", "%iffalse%"⟩
    let mergeText := "MERGEFIELD\u00a0\"à b\"\u2003\\* x".toList
    (Spells text instruction ∧ parse text = .ok instruction) ∧
      Spells mergeText (.merge "à b") ∧ parse mergeText = .ok (.merge "à b") := by
  intro text instruction mergeText
  have htext : text =
      [' '] ++ (("IF".toList ++ ([' '] ++ ('"' :: ("%iftrue%".toList ++ ['"']) ++ ([' ', ' '] ++
        ("<>".toList ++ ([' '] ++ ("%iffalse%".toList ++ (['\t'] ++
          ('"' :: ("%iftrue%".toList ++ ['"']) ++ ([' '] ++
            '"' :: ("%iffalse%".toList ++ ['"']))))))))))) ++
        " \"%iftrue%\" \"%iffalse%\"".toList) := by
    decide +kernel
  have hmergeText : mergeText =
      [] ++ (("MERGEFIELD".toList ++ (['\u00a0'] ++ '"' :: ("à b".toList ++ ['"']))) ++
        "\u2003\\* x".toList) := by
    decide +kernel
  have hquoted : TokenKind.quoted ≠ .operator := nofun
  have hword : TokenKind.word ≠ .operator := nofun
  have hspells : Spells text instruction := by
    rw [htext]
    refine .conditional (by decide) hquoted hword ?_ ⟨startsIn_cons.2 (by decide), by decide⟩
    refine .cons (.word_of_all (by decide) (by decide)) (by decide) (by decide) ?_
    refine .cons (.quoted (by decide)) (by decide) (by decide) ?_
    refine .cons (.operator (by decide)) (by decide) (by decide) ?_
    refine .cons (.word_of_all (by decide) (by decide)) (by decide) (by decide) ?_
    refine .cons (.quoted (by decide)) (by decide) (by decide) ?_
    exact .single (.quoted (by decide))
  have hmergeSpells : Spells mergeText (.merge "à b") := by
    rw [hmergeText]
    refine .merge rfl hquoted (by decide) ?_ ⟨startsIn_cons.2 (by decide), by decide⟩
    refine .cons (.word_of_all (by decide) (by decide)) (by decide) (by decide) ?_
    exact .single (.quoted (by decide))
  exact ⟨⟨hspells, parse_of_spells hspells⟩, hmergeSpells, parse_of_spells hmergeSpells⟩

end Instruction

end WordFields
