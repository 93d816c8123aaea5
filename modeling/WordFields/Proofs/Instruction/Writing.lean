import WordFields.Proofs.Instruction.Spelling

/-!
# Writing a condition

`Condition.instruction` writes a condition as the instruction of an IF field, with both operands
quoted.  Reading it back gives the condition, whatever the operands are, as long as they have no
quote themselves: also an operand that is spelled like a branch literal stays an operand.
-/

namespace WordFields

open Text Token

namespace Condition

/-- The instruction of an IF field with this condition. -/
def instruction (condition : Condition) : String :=
  "IF \"" ++ condition.left ++ "\" " ++ condition.operator ++ " \"" ++ condition.right ++
    "\" \"%iftrue%\" \"%iffalse%\""

/-- A condition that can be written: no quote in the operands, and a known operator. -/
structure Writable (condition : Condition) : Prop where
  left : '"' ∉ condition.left.toList
  right : '"' ∉ condition.right.toList
  operator : condition.operator ∈ Operator.spellings.map Prod.fst

instance (condition : Condition) : Decidable condition.Writable :=
  decidable_of_iff ('"' ∉ condition.left.toList ∧ '"' ∉ condition.right.toList ∧
      condition.operator ∈ Operator.spellings.map Prod.fst)
    ⟨fun ⟨left, right, operator⟩ => ⟨left, right, operator⟩,
      fun ⟨left, right, operator⟩ => ⟨left, right, operator⟩⟩

/-- The instruction as a text: the keyword, and each part behind a space. -/
lemma toList_instruction (condition : Condition) :
    condition.instruction.toList =
      "IF".toList ++ ([' '] ++ ('"' :: (condition.left.toList ++ ['"']) ++ ([' '] ++
        (condition.operator.toList ++ ([' '] ++ ('"' :: (condition.right.toList ++ ['"']) ++ ([' '] ++
          ('"' :: ("%iftrue%".toList ++ ['"']) ++ ([' '] ++
            '"' :: ("%iffalse%".toList ++ ['"'])))))))))) := by
  simp [instruction, String.toList_append]

/-- The tokens of a written condition. -/
lemma Writable.spaced {condition : Condition} (h : condition.Writable) :
    Spaced [(.word, "IF"), (.quoted, condition.left), (.operator, condition.operator),
      (.quoted, condition.right), (.quoted, "%iftrue%"), (.quoted, "%iffalse%")]
      condition.instruction.toList := by
  have hspace : allBlank [' '] = true := by decide
  rw [condition.toList_instruction]
  refine .cons (.word_of_all (by decide) (by decide)) (List.cons_ne_nil _ _) hspace ?_
  refine .cons (.quoted h.left) (List.cons_ne_nil _ _) hspace ?_
  refine .cons (.operator h.operator) (List.cons_ne_nil _ _) hspace ?_
  refine .cons (.quoted h.right) (List.cons_ne_nil _ _) hspace ?_
  refine .cons (.quoted (by decide)) (List.cons_ne_nil _ _) hspace ?_
  exact .single (.quoted (by decide))

end Condition

namespace Instruction

/-- A written condition is read back. -/
theorem parse_instruction {condition : Condition} (h : condition.Writable) :
    parse condition.instruction.toList = .ok (.conditional condition) := by
  have hquoted : TokenKind.quoted ≠ .operator := nofun
  have htrails : Trails [] := ⟨startsIn_nil _, Even.zero⟩
  have hparse := @parse_conditional [] _ [] _ _ _ _ _ rfl hquoted hquoted h.spaced htrails
  rwa [List.nil_append, List.append_nil] at hparse

/-- A written condition is known by its first word already. -/
theorem isConditional_instruction (condition : Condition) :
    isConditional condition.instruction.toList = true := by
  have hkeyword : ∀ rest : List Char,
      keyword? ("IF".toList ++ ([' '] ++ rest)) = some "IF".toList := by
    intro rest
    rfl
  rw [isConditional, condition.toList_instruction, hkeyword]
  rfl

end Instruction

end WordFields
