import WordFields.Field.Substitution
import WordFields.Proofs.Field.Agreement
import WordFields.Proofs.Instruction.Keyword

/-!
# Which instructions are recognized as fields

A document is searched for fields by the first word of each instruction, and the fields that are
found are read by the grammar of instructions.  What the search finds is never read as a field of
another kind, and every merge field and IF field that the grammar knows is found, but for an IF
field with the operator `!=` directly behind its keyword: such a field is passed over without a
report.
-/

namespace WordFields

open Instruction

namespace Document

variable {d : Document} {runs : List NodeId} {index : Nat}

/-- A field that opens at an index has an instruction, and its first word is that of an IF field. -/
lemma isConditional_of_opensIf (h : d.opensIf runs index = true) :
    isConditional (d.instructionAt runs index).2.toList = true := by
  obtain ⟨run, next, instruction, -, hnext, -, hinstruction, hword⟩ := opensIf_iff.1 h
  simpa [instructionAt, hnext, hinstruction] using hword

/-- The fault of an instruction that a header reports is that of the grammar, unless the instruction
is that of another kind of field. -/
lemma parse_of_readHeader_error {p : IfProblem} {fault : InstructionFault}
    (h : d.readHeader runs index = .error p) (hfault : p.fault = .unparseable fault) :
    p.instruction = (d.instructionAt runs index).2 ∧
      (parse p.instruction.toList = .error fault ∨
        ∃ instruction, parse p.instruction.toList = .ok instruction ∧
          ¬ ∃ condition, instruction = .conditional condition) := by
  unfold readHeader at h
  rcases hat : d.instructionAt runs index with ⟨node, text⟩
  simp only [hat] at h
  split at h
  next cause hparse =>
    cases h
    cases hfault
    exact ⟨rfl, .inl hparse⟩
  next =>
    split at h
    next =>
      cases h
      cases hfault
    next =>
      split at h
      next => cases h
      next =>
        cases h
        cases hfault
  next instruction hother hparse =>
    cases h
    exact ⟨rfl, .inr ⟨instruction, hparse, fun ⟨condition, heq⟩ => hother condition heq⟩⟩

/-- Every instruction of the document that is a field of a known kind is recognized as one, except
for a negated keyword, and as no other kind. -/
structure Recognizes (d : Document) : Prop where
  unparseable : ∀ runs index p fault, d.opensIf runs index = true →
    d.readHeader runs index = .error p → p.fault = .unparseable fault →
      parse p.instruction.toList = .error fault
  opensIf_iff : ∀ runs index run next id condition, runs[index]? = some run →
    runs[index + 1]? = some next → d.runMark? run = some .beginning →
    d.runInstruction? next = some id →
    parse (d.textContent id).toList = .ok (.conditional condition) →
      (d.opensIf runs index = true ↔ ¬ Negated ifKeyword (d.textContent id).toList)
  mergeFields : ∀ id ∈ d.instructions, ∀ path,
    parse (d.textContent id).toList = .ok (.merge path) → ⟨id, some path⟩ ∈ d.mergeFields
  mergeFault : ∀ field ∈ d.mergeFields, field.path = none →
    ∃ fault, parse (d.textContent field.instruction).toList = .error fault

lemma recognizes (d : Document) : d.Recognizes where
  unparseable runs index p fault hopens herror hfault := by
    obtain ⟨htext, hparse | ⟨instruction, hparse, hother⟩⟩ :=
      parse_of_readHeader_error herror hfault
    · exact hparse
    · refine absurd (((isToldByWord _).parse_conditional_iff instruction hparse).2 (.inl ?_)) hother
      rw [htext]
      exact isConditional_of_opensIf hopens
  opensIf_iff runs index run next id condition hrun hnext hmark hinstruction hparse := by
    have htold := isToldByWord (d.textContent id).toList
    have heither := (htold.parse_conditional_iff _ hparse).1 ⟨condition, rfl⟩
    rw [Document.opensIf_iff]
    constructor
    · rintro ⟨run', next', id', -, hnext', -, hinstruction', hword⟩
      rw [hnext, Option.some.injEq] at hnext'
      rw [← hnext', hinstruction, Option.some.injEq] at hinstruction'
      rw [← hinstruction'] at hword
      exact fun hnegated => keyword?_ne_of_negated isSolid_ifKeyword hnegated (beq_iff_eq.1 hword)
    · intro hnegated
      exact ⟨run, next, id, hrun, hnext, hmark, hinstruction, heither.resolve_right hnegated⟩
  mergeFields id hid path hparse := by
    have hmerge := ((isToldByWord _).parse_merge_iff _ hparse).1 ⟨path, rfl⟩
    refine List.mem_filterMap.2 ⟨id, hid, ?_⟩
    simp [hmerge, hparse]
  mergeFault field hfield hpath := by
    obtain ⟨id, -, hid⟩ := List.mem_filterMap.1 hfield
    simp only at hid
    split at hid
    next hmerge =>
      split at hid
      next =>
        cases hid
        cases hpath
      next hnot =>
        cases hid
        cases hparse : parse (d.textContent id).toList with
        | error fault => exact ⟨fault, rfl⟩
        | ok instruction =>
          obtain ⟨path, rfl⟩ := ((isToldByWord _).parse_merge_iff _ hparse).2 hmerge
          exact absurd hparse (hnot path)
    next => cases hid

/-- The first word of an instruction and its first token tell the same kind of field, and in a
document the search and the grammar agree, but for a keyword with the operator `!=` directly behind
it.  The grammar makes an IF field of that, with a condition that never holds, and no merge field;
the search passes it over. -/
theorem instructions_recognized (text : String) (d : Document) :
    IsToldByWord text.toList ∧ d.Recognizes :=
  ⟨isToldByWord text.toList, d.recognizes⟩

/-- A page with an IF field whose keyword is negated. -/
def negatedPage : Document :=
  ofForest [.word "p" [wordDeclaration]
    ([.mark .beginning, .instruction "IF!=a \"%iftrue%\" \"%iffalse%\"", .mark .separator,
      .text "{IF}", .mark .ending, .text "yes", .text "%end%"].map RunContent.tree)]

/-- The two ways do not agree on a negated keyword: the first token is the word `IF`, and the
grammar makes an IF field of the instruction, but the search finds no field and reports nothing. -/
theorem not_recognized_negated :
    (¬ ∀ text tokens, Token.tokenize text = .ok tokens →
      (isConditional text = true ↔ headIsWord ifKeyword tokens = true)) ∧
    (negatedPage.instructions.map fun id => parse (negatedPage.textContent id).toList) =
      [.ok (.conditional ⟨"!=a", "", ""⟩)] ∧
    (negatedPage.ifSpans {}).1.length = 0 ∧ (negatedPage.ifSpans {}).2 = [] := by
  refine ⟨fun h => ?_, by decide +kernel, by decide +kernel, by decide +kernel⟩
  have htokens : Token.tokenize "IF!=a".toList =
      .ok [⟨.word, "IF", 0, 2⟩, ⟨.operator, "!=", 2, 4⟩, ⟨.word, "a", 4, 5⟩] := by decide +kernel
  have hiff := h _ _ htokens
  have hword : isConditional "IF!=a".toList = false := by decide +kernel
  rw [hword] at hiff
  exact Bool.false_ne_true (hiff.2 rfl)

end Document

end WordFields
