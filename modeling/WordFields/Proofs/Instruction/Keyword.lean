import Mathlib.Data.List.TakeWhile
import WordFields.Proofs.Instruction.Grammar
import WordFields.Proofs.Text.Blank

/-!
# Two ways to tell a field by its instruction

The search for fields looks at the first word of an instruction, up to a quote or one of the
characters `=`, `<` and `>`.  The grammar looks at the first token, and a word that is a token ends
in front of any operator.  There is one operator that starts with another character, `!=`: a keyword
with this operator directly behind it (`Negated`) is a token, but it is not the first word.  In any
other text the two ways agree (`headIsWord_iff`).
-/

namespace WordFields

open Text Token

namespace Token

/-- A text begins with an operator if it begins with one of three characters, or with `!=`. -/
lemma begins_cons_iff {c : Char} {text : List Char} :
    Operator.Begins (c :: text) ↔ c ∈ ['=', '<', '>'] ∨ ['!', '='] <+: c :: text := by
  constructor
  · rintro ⟨spelling, hmem, hbegins⟩
    have hfirst : ∀ spelling ∈ Operator.texts,
        spelling.toList.head? ∈ ['=', '<', '>'].map some ∨ spelling = "!=" := by decide
    rcases hfirst spelling hmem with hmark | rfl
    · left
      obtain ⟨rest, hrest⟩ := hbegins
      cases hspelling : spelling.toList with
      | nil => exact absurd hspelling (Operator.ne_nil_of_mem_texts hmem)
      | cons d spelling =>
        rw [hspelling, List.cons_append, List.cons.injEq] at hrest
        rw [hspelling, List.head?_cons, hrest.1] at hmark
        simpa using hmark
    · exact .inr hbegins
  · rintro (hmark | hsign)
    · refine ⟨_, Operator.mem_texts_of_mark hmark, ?_⟩
      rw [String.toList_ofList]
      exact List.prefix_append [c] text
    · exact ⟨"!=", by decide, hsign⟩

lemma tokensAt_blanks {gap : List Char} (h : allBlank gap = true) (position : Nat)
    (text : List Char) :
    tokensAt position (gap ++ text) = tokensAt (position + byteLength gap) text := by
  induction gap generalizing position with
  | nil => rfl
  | cons c gap ih =>
    rw [allBlank, List.all_cons, Bool.and_eq_true] at h
    rw [List.cons_append, tokensAt_blank h.1, ih h.2, byteLength_cons, Nat.add_assoc]

end Token

namespace Instruction

/-! ## Words that nothing breaks -/

/-- A word in which neither a keyword nor a token ends: no character of it is blank, a quote or the
first of an operator. -/
structure IsSolid (word : List Char) : Prop where
  nonempty : word ≠ []
  plain : ∀ c ∈ word, isBlank c = false ∧ c ∉ ['"', '=', '<', '>', '!']

lemma isSolid_ifKeyword : IsSolid ifKeyword.toList :=
  ⟨by decide, List.forall_iff_forall_mem.1 (by decide)⟩

lemma isSolid_mergeKeyword : IsSolid mergeKeyword.toList :=
  ⟨by decide, List.forall_iff_forall_mem.1 (by decide)⟩

variable {word text front back : List Char} {tokens : List Token}

lemma trimStart_append (hfront : allBlank front = true) (text : List Char) :
    trimStart (front ++ text) = trimStart text :=
  List.dropWhile_append_of_pos (List.all_eq_true.1 hfront)

lemma IsSolid.trimStart (h : IsSolid word) (back : List Char) :
    trimStart (word ++ back) = word ++ back := by
  obtain ⟨c, rest, rfl⟩ := List.exists_cons_of_ne_nil h.nonempty
  exact trimStart_eq_self (startsIn_cons.2 (h.plain c List.mem_cons_self).1)

lemma IsSolid.unbroken (h : IsSolid word) (back : List Char) : Unbroken word back := by
  intro before c after hword
  obtain ⟨hblank, hplain⟩ := h.plain c (by rw [hword]; simp)
  simp only [List.mem_cons, List.not_mem_nil, or_false, not_or] at hplain
  obtain ⟨hquote, hmarks⟩ := hplain
  refine ⟨hblank, hquote, fun hbegins => ?_⟩
  rcases begins_cons_iff.1 hbegins with hmark | hsign
  · simp only [List.mem_cons, List.not_mem_nil, or_false] at hmark
    tauto
  · exact hmarks.2.2.2 (List.cons_prefix_cons.1 hsign).1.symm

/-! ## The first word -/

/-- Whether a keyword goes on with a character. -/
def continues (c : Char) : Bool :=
  !endsKeyword c && !isBlank c

lemma IsSolid.continues (h : IsSolid word) {c : Char} (hc : c ∈ word) : continues c = true := by
  obtain ⟨hblank, hplain⟩ := h.plain c hc
  simp only [List.mem_cons, List.not_mem_nil, or_false, not_or] at hplain
  simp [Instruction.continues, endsKeyword, hblank, hplain]

/-- A keyword is what stands behind the blank characters at the start of a text, as far as it goes
on. -/
lemma keyword?_eq_some_iff (hsolid : IsSolid word) :
    keyword? text = some word ↔
      ∃ front back, text = front ++ (word ++ back) ∧ allBlank front = true ∧
        StartsIn (continues · = false) back := by
  have hword : ∀ c rest, trimStart text = c :: rest →
      keyword? text = some ((c :: rest).takeWhile continues) := by
    intro c rest htrim
    rw [keyword?, firstWord?, htrim, Option.map_some, List.takeWhile_takeWhile]
    exact congrArg (fun p => some ((c :: rest).takeWhile p)) (by funext d; simp [continues])
  constructor
  · intro h
    obtain ⟨front, hfront, hblank⟩ := exists_append_trimStart text
    cases htrim : trimStart text with
    | nil =>
      rw [keyword?, firstWord?, htrim] at h
      cases h
    | cons c rest =>
      rw [hword c rest htrim, Option.some.injEq] at h
      refine ⟨front, (c :: rest).dropWhile continues, ?_, hblank, startsIn_dropWhile _ _⟩
      rw [← h, List.takeWhile_append_dropWhile, ← htrim, ← hfront]
  · rintro ⟨front, back, rfl, hblank, hback⟩
    have hall : ∀ c ∈ word, continues c = true := fun c => hsolid.continues
    obtain ⟨c, rest, rfl⟩ := List.exists_cons_of_ne_nil hsolid.nonempty
    have htrim : trimStart (front ++ (c :: rest ++ back)) = c :: (rest ++ back) := by
      rw [trimStart_append hblank, hsolid.trimStart, List.cons_append]
    have hnone : back.takeWhile continues = [] := by
      cases back with
      | nil => rfl
      | cons d back => exact List.takeWhile_cons_of_neg (by simp [hback d rfl])
    rw [hword _ _ htrim, ← List.cons_append, List.takeWhile_append_of_pos hall, hnone,
      List.append_nil]

/-! ## The first token -/

/-- Whether the first token is a certain word. -/
def headIsWord (word : String) (tokens : List Token) : Bool :=
  tokens.head?.any (·.isWord word)

lemma map_cons_eq_ok_iff {found : Except Nat (List Token)} {token : Token} :
    found.map (token :: ·) = .ok tokens ↔ ∃ rest, found = .ok rest ∧ tokens = token :: rest := by
  cases found with
  | error fault => exact iff_of_false nofun (by simp)
  | ok rest => simp [Except.map, eq_comm]

/-- A word that nothing breaks is a token where a word ends behind it. -/
lemma tokensAt_solid (hsolid : IsSolid word) (hends : endsWord back = true) (position : Nat) :
    tokensAt position (word ++ back) =
      (tokensAt (position + byteLength word) back).map (spelled .word word word position :: ·) :=
  tokensAt_leads (leads_word hsolid.nonempty (hsolid.unbroken back) hends position)

/-- A first token that is a certain word is what stands behind the blank characters at the start of
a text, as far as no operator breaks it. -/
lemma headIsWord_iff_exists {keyword : String} (hsolid : IsSolid keyword.toList) {position : Nat}
    (h : Lexes position text tokens) :
    headIsWord keyword tokens = true ↔
      ∃ front back, text = front ++ (keyword.toList ++ back) ∧ allBlank front = true ∧
        endsWord back = true := by
  constructor
  · intro hhead
    induction h with
    | finished => cases hhead
    | @blank position d text tokens isBlank _ ih =>
      obtain ⟨front, back, rfl, hblank, hends⟩ := ih hhead
      refine ⟨d :: front, back, rfl, ?_, hends⟩
      rw [allBlank, List.all_cons, isBlank, Bool.true_and]
      exact hblank
    | @token token spelling behind tokens leads _ _ =>
      obtain ⟨hkind, htext⟩ : token.kind = .word ∧ token.text = keyword := by
        simpa [headIsWord, isWord] using hhead
      have hspelling := leads.fits.spelling_eq
      rw [Token.spelling, hkind, htext] at hspelling
      exact ⟨[], behind, by rw [← hspelling, List.nil_append], rfl, leads.maximal hkind⟩
  · rintro ⟨front, back, rfl, hblank, hends⟩
    have hfound := tokensAt_eq_ok_iff.2 h
    rw [tokensAt_blanks hblank, tokensAt_solid hsolid hends, map_cons_eq_ok_iff] at hfound
    obtain ⟨rest, -, rfl⟩ := hfound
    simp [headIsWord, isWord, spelled]

/-! ## Where they agree -/

/-- A word ends where a keyword does, and in front of the one operator that starts with another
character. -/
lemma endsWord_iff :
    endsWord back = true ↔ StartsIn (continues · = false) back ∨ ['!', '='] <+: back := by
  cases back with
  | nil => exact iff_of_true rfl (.inl (startsIn_nil _))
  | cons c back =>
    rw [endsWord_cons_iff, begins_cons_iff, startsIn_cons, ← or_assoc, ← or_assoc]
    refine or_congr_left ?_
    simp only [continues, endsKeyword, List.mem_cons, List.not_mem_nil, or_false]
    cases isBlank c with
    | true => simp
    | false =>
      simp only [Bool.false_eq_true, false_or, Bool.not_false, Bool.and_true, Bool.not_eq_false',
        Bool.or_eq_true, decide_eq_true_eq]
      tauto

/-- The keyword stands at the start of a text, with the operator `!=` directly behind it. -/
def Negated (keyword : String) (text : List Char) : Prop :=
  ∃ front back, text = front ++ (keyword.toList ++ '!' :: '=' :: back) ∧ allBlank front = true

/-- A first token is the first word as well, or it is negated. -/
lemma headIsWord_iff {keyword : String} (hsolid : IsSolid keyword.toList)
    (h : tokenize text = .ok tokens) :
    headIsWord keyword tokens = true ↔
      keyword? text = some keyword.toList ∨ Negated keyword text := by
  rw [headIsWord_iff_exists hsolid (tokensAt_eq_ok_iff.1 h), keyword?_eq_some_iff hsolid]
  constructor
  · rintro ⟨front, back, rfl, hblank, hends⟩
    rcases endsWord_iff.1 hends with hstart | ⟨back, rfl⟩
    · exact .inl ⟨front, back, rfl, hblank, hstart⟩
    · exact .inr ⟨front, back, rfl, hblank⟩
  · rintro (⟨front, back, rfl, hblank, hstart⟩ | ⟨front, back, rfl, hblank⟩)
    · exact ⟨front, back, rfl, hblank, endsWord_iff.2 (.inl hstart)⟩
    · exact ⟨front, _, rfl, hblank, endsWord_iff.2 (.inr ⟨back, rfl⟩)⟩

/-- A negated keyword is not the first word, which goes on with the exclamation mark. -/
lemma keyword?_ne_of_negated {keyword : String} (hsolid : IsSolid keyword.toList)
    (h : Negated keyword text) : keyword? text ≠ some keyword.toList := by
  intro hkeyword
  obtain ⟨front, back, rfl, hblank⟩ := h
  obtain ⟨front', back', htext, hblank', hback'⟩ := (keyword?_eq_some_iff hsolid).1 hkeyword
  have htrim := congrArg trimStart htext
  rw [trimStart_append hblank, trimStart_append hblank', hsolid.trimStart, hsolid.trimStart,
    List.append_cancel_left_eq] at htrim
  rw [← htrim, startsIn_cons] at hback'
  revert hback'
  decide

/-! ## What the grammar makes of it -/

lemma readMerge_eq_ok {instruction : Instruction} (h : readMerge tokens = .ok instruction) :
    (∃ path, instruction = .merge path) ∧ ∃ name ∈ tokens.head?, name.isOperand = true := by
  cases tokens with
  | nil => cases h
  | cons name tokens =>
    rw [readMerge] at h
    split at h
    next hname =>
      cases h
      exact ⟨⟨_, rfl⟩, name, rfl, (Bool.and_eq_true_iff.1 hname).1⟩
    next => cases h

lemma readConditional_eq_ok {instruction : Instruction}
    (h : readConditional text tokens = .ok instruction) :
    ∃ before condition, beforeLiterals? tokens = some before ∧
      conditionOf text before = .ok condition ∧ instruction = .conditional condition := by
  rw [readConditional] at h
  split at h
  next => cases h
  next before hbefore =>
    cases hcondition : conditionOf text before with
    | error fault =>
      rw [hcondition] at h
      cases h
    | ok condition =>
      rw [hcondition] at h
      cases h
      exact ⟨before, condition, hbefore, hcondition, rfl⟩

lemma isWord_iff {token : Token} {word : String} :
    token.isWord word = true ↔ token.kind = .word ∧ token.text = word := by
  simp [isWord]

/-- Which instruction a text is depends on its first token. -/
lemma kind_of_parse {instruction : Instruction} (h : parse text = .ok instruction) :
    ∃ first rest, tokenize text = .ok (first :: rest) ∧
      ((∃ condition, instruction = .conditional condition) ↔ first.isWord ifKeyword = true) ∧
      ((∃ path, instruction = .merge path) ↔ first.isWord mergeKeyword = true) ∧
      (first.isWord mergeKeyword = true → readMerge rest = .ok instruction) ∧
      (first.isWord ifKeyword = true → readConditional text rest = .ok instruction) := by
  have hapart : ∀ token : Token, token.isWord mergeKeyword = true →
      token.isWord ifKeyword = true → False := by
    intro token hmerge hif
    exact absurd ((isWord_iff.1 hmerge).2.symm.trans (isWord_iff.1 hif).2) (by decide)
  rw [parse] at h
  split at h
  next => cases h
  next => cases h
  next first rest htokens =>
    refine ⟨first, rest, htokens, ?_⟩
    split at h
    next hmerge =>
      obtain ⟨⟨path, rfl⟩, -⟩ := readMerge_eq_ok h
      refine ⟨iff_of_false nofun (hapart first hmerge), iff_of_true ⟨path, rfl⟩ hmerge,
        fun _ => h, fun hif => (hapart first hmerge hif).elim⟩
    next hmerge =>
      split at h
      next hif =>
        obtain ⟨-, condition, -, -, rfl⟩ := readConditional_eq_ok h
        exact ⟨iff_of_true ⟨condition, rfl⟩ hif, iff_of_false nofun hmerge,
          fun hword => absurd hword hmerge, fun _ => h⟩
      next hif =>
        cases h
        exact ⟨iff_of_false nofun hif, iff_of_false nofun hmerge,
          fun hword => absurd hword hmerge, fun hword => absurd hword hif⟩

/-- Behind a negated keyword the next token is the operator. -/
lemma operator_behind_negated {keyword : String} (hsolid : IsSolid keyword.toList)
    (h : Negated keyword text) {first : Token} {rest : List Token}
    (htokens : tokenize text = .ok (first :: rest)) :
    ∃ sign later, rest = sign :: later ∧ sign.kind = .operator := by
  obtain ⟨front, back, rfl, hblank⟩ := h
  have hends : endsWord ('!' :: '=' :: back) = true :=
    endsWord_iff.2 (.inr ⟨back, rfl⟩)
  have hcut : Operator.cutSpelling? ('!' :: '=' :: back) = some (['!', '='], back) := rfl
  rw [tokenize_eq_tokensAt, tokensAt_blanks hblank, tokensAt_solid hsolid hends,
    tokensAt_operator (by decide) (by decide) hcut, map_cons_eq_ok_iff] at htokens
  obtain ⟨found, hfound, hcons⟩ := htokens
  obtain ⟨later, -, rfl⟩ := map_cons_eq_ok_iff.1 hfound
  cases hcons
  exact ⟨_, later, rfl, rfl⟩

/-- A condition that starts with an operator is kept as it stands. -/
lemma conditionOf_operator {sign : Token} (hsign : sign.kind = .operator) {condition : Condition}
    (h : conditionOf text (sign :: tokens) = .ok condition) :
    condition.operator = "" ∧ condition.right = "" := by
  have hsplit : splitCondition? ((sign :: tokens).map bare) = none := by
    match tokens with
    | [] => rfl
    | [_] => rfl
    | [_, _] => simp [splitCondition?, bare, hsign]
    | _ :: _ :: _ :: _ => rfl
  rw [conditionOf_cons, hsplit] at h
  cases h
  exact ⟨rfl, rfl⟩

/-- The first word of a text says of it what its tokens say, and what instruction it is.  Only a
negated keyword is overlooked, and the condition of such a field is never one that can be split. -/
structure IsToldByWord (text : List Char) : Prop where
  isConditional_iff : ∀ tokens, tokenize text = .ok tokens →
    (isConditional text = true ↔ headIsWord ifKeyword tokens = true ∧ ¬ Negated ifKeyword text)
  isMerge_iff : ∀ tokens, tokenize text = .ok tokens →
    (isMerge text = true ↔ headIsWord mergeKeyword tokens = true ∧ ¬ Negated mergeKeyword text)
  parse_conditional_iff : ∀ instruction, parse text = .ok instruction →
    ((∃ condition, instruction = .conditional condition) ↔
      isConditional text = true ∨ Negated ifKeyword text)
  parse_merge_iff : ∀ instruction, parse text = .ok instruction →
    ((∃ path, instruction = .merge path) ↔ isMerge text = true)
  parse_negated : ∀ condition, parse text = .ok (.conditional condition) →
    Negated ifKeyword text → condition.operator = "" ∧ condition.right = ""

/-- The first word of a text is a keyword if the first token is and it is not negated. -/
lemma keyword?_beq_iff {keyword : String} (hsolid : IsSolid keyword.toList)
    (h : tokenize text = .ok tokens) :
    (keyword? text == some keyword.toList) = true ↔
      headIsWord keyword tokens = true ∧ ¬ Negated keyword text := by
  rw [headIsWord_iff hsolid h, beq_iff_eq]
  constructor
  · exact fun hword => ⟨.inl hword, fun hnegated => keyword?_ne_of_negated hsolid hnegated hword⟩
  · exact fun ⟨hhead, hnegated⟩ => hhead.resolve_right hnegated

lemma isToldByWord (text : List Char) : IsToldByWord text where
  isConditional_iff _ := keyword?_beq_iff isSolid_ifKeyword
  isMerge_iff _ := keyword?_beq_iff isSolid_mergeKeyword
  parse_conditional_iff instruction h := by
    obtain ⟨first, rest, htokens, hconditional, -⟩ := kind_of_parse h
    have hhead := headIsWord_iff isSolid_ifKeyword htokens
    rw [hconditional, isConditional, beq_iff_eq, ← hhead]
    simp [headIsWord]
  parse_merge_iff instruction h := by
    obtain ⟨first, rest, htokens, -, hmerge, hread, -⟩ := kind_of_parse h
    have hhead := headIsWord_iff isSolid_mergeKeyword htokens
    have hfirst : headIsWord mergeKeyword (first :: rest) = first.isWord mergeKeyword := by
      simp [headIsWord]
    rw [hfirst] at hhead
    rw [hmerge, isMerge, beq_iff_eq, hhead, or_iff_left_iff_imp]
    -- a merge field has an operand behind its keyword
    intro hnegated
    obtain ⟨sign, later, rfl, hsign⟩ :=
      operator_behind_negated isSolid_mergeKeyword hnegated htokens
    obtain ⟨-, name, hname, hoperand⟩ := readMerge_eq_ok (hread (hhead.2 (.inr hnegated)))
    cases hname
    simp [isOperand, hsign] at hoperand
  parse_negated condition h hnegated := by
    obtain ⟨first, rest, htokens, hconditional, -, -, hread⟩ := kind_of_parse h
    obtain ⟨sign, later, rfl, hsign⟩ := operator_behind_negated isSolid_ifKeyword hnegated htokens
    obtain ⟨before, _, hbefore, hcondition, heq⟩ :=
      readConditional_eq_ok (hread (hconditional.1 ⟨condition, rfl⟩))
    cases heq
    obtain ⟨behind, hbehind, -⟩ := exists_of_beforeLiterals? hbefore
    cases before with
    | nil => cases hcondition
    | cons token before =>
      rw [List.cons_append, List.cons.injEq] at hbehind
      exact conditionOf_operator (hbehind.1 ▸ hsign) hcondition

end Instruction

end WordFields
