import WordFields.Proofs.Instruction.Grammar

/-!
# Tokens written anew

`Token.print` writes the tokens of a text with one space between each and the next.  They are found
again, and the instruction stays the same, except that a condition which cannot be split keeps its
text, and the spacing in this text is new as well (`Instruction.parse_print`).

For that case it has to be known what the kept text is: the part of a text at which some of its
tokens stand has these tokens by itself (`Lexes.exists_spans`), so writing them anew is writing the
kept text anew.
-/

namespace WordFields

open Text

/-! ## Parts of a text -/

namespace Operator

lemma Begins.append {text : List Char} (h : Begins text) (rest : List Char) :
    Begins (text ++ rest) := by
  obtain ⟨spelling, hmem, hstarts⟩ := h
  exact ⟨spelling, hmem, hstarts.trans (List.prefix_append text rest)⟩

end Operator

namespace Token

variable {token token' : Token} {spelling back rest : List Char}

/-- A token is the same if less of the text behind it is there. -/
lemma Fits.of_append (h : token.Fits spelling (back ++ rest)) : token.Fits spelling back := by
  cases h with
  | word kind_eq nonempty unbroken =>
    refine .word kind_eq nonempty fun before c after htext => ?_
    obtain ⟨hblank, hquote, hbegins⟩ := unbroken before c after htext
    refine ⟨hblank, hquote, fun h => hbegins ?_⟩
    rw [← List.append_assoc, ← List.cons_append]
    exact h.append rest
  | quoted kind_eq unquoted => exact .quoted kind_eq unquoted
  | operator kind_eq longest =>
    refine .operator kind_eq ⟨longest.mem, List.prefix_append _ _, fun other hother hstarts => ?_⟩
    refine longest.longest other hother ?_
    rw [← List.append_assoc]
    exact hstarts.trans (List.prefix_append _ _)

namespace Lexes

variable {position : Nat} {text : List Char} {tokens earlier part later : List Token}

/-- The first tokens of a text are the tokens of the text up to where the last of them stops, and
the others are those of the text behind. -/
lemma exists_append (h : Lexes position text (part ++ later)) :
    ∃ body back, text = body ++ back ∧ Lexes position body part ∧
      Lexes (position + byteLength body) back later ∧
      (part.getLast?.map Token.stop).getD position = position + byteLength body ∧
      (endsWord text = true → endsWord body = true) := by
  generalize htokens : part ++ later = tokens at h
  induction h generalizing part with
  | @finished position =>
    obtain ⟨rfl, rfl⟩ := List.append_eq_nil_iff.1 htokens
    exact ⟨[], [], rfl, .finished, .finished, rfl, id⟩
  | @blank position c text tokens isBlank behind ih =>
    cases part with
    | nil =>
      obtain rfl : later = tokens := htokens
      exact ⟨[], c :: text, rfl, .finished, .blank isBlank behind, rfl, fun _ => rfl⟩
    | cons first part =>
      obtain ⟨body, back, rfl, hbody, hback, hstop, -⟩ := ih htokens
      rw [Nat.add_assoc, ← byteLength_cons] at hback hstop
      exact ⟨c :: body, back, rfl, .blank isBlank hbody, hback, hstop,
        fun _ => endsWord_cons_iff.2 (.inl isBlank)⟩
  | @token token spelling back tokens leads behind ih =>
    cases part with
    | nil =>
      obtain rfl : later = token :: tokens := htokens
      exact ⟨[], spelling ++ back, rfl, .finished, .token leads behind, rfl, fun _ => rfl⟩
    | cons first part =>
      rw [List.cons_append, List.cons.injEq] at htokens
      obtain ⟨rfl, htokens⟩ := htokens
      obtain ⟨body, back, rfl, hbody, hback, hstop, hends⟩ := ih htokens
      have hfits : first.Fits spelling body := leads.fits.of_append
      have hleads : first.Leads spelling body :=
        ⟨hfits, leads.stop_eq, fun hkind => hends (leads.maximal hkind)⟩
      have hlength : first.stop + byteLength body =
          first.start + byteLength (spelling ++ body) := by
        rw [leads.stop_eq, byteLength_append, Nat.add_assoc]
      rw [hlength] at hback hstop
      refine ⟨spelling ++ body, back, (List.append_assoc _ _ _).symm, .token hleads hbody, hback,
        ?_, fun h => hfits.endsWord_iff.2 (leads.fits.endsWord_iff.1 h)⟩
      rw [← hstop, List.getLast?_cons, Option.map_some, Option.getD_some]
      cases part.getLast? <;> rfl

/-- There is nothing but blank characters in front of the first token. -/
lemma exists_start {first : Token} (h : Lexes position text (first :: tokens)) :
    ∃ gap body, text = gap ++ body ∧ first.start = position + byteLength gap ∧
      Lexes first.start body (first :: tokens) := by
  generalize hfound : first :: tokens = found at h
  induction h with
  | finished => cases hfound
  | @blank position c text found isBlank behind ih =>
    obtain ⟨gap, body, rfl, hstart, hbody⟩ := ih hfound
    refine ⟨c :: gap, body, rfl, ?_, hbody⟩
    rw [hstart, byteLength_cons, Nat.add_assoc]
  | @token token spelling back found leads behind ih =>
    obtain ⟨rfl, rfl⟩ := List.cons.inj hfound
    exact ⟨[], spelling ++ back, rfl, rfl, .token leads behind⟩

/-- The part of a text at which some of its tokens stand has these tokens by itself. -/
lemma exists_spans (h : Lexes 0 text (earlier ++ (part ++ later))) (hne : part ≠ []) :
    ∃ front body back, Instruction.Spans part text front body back ∧
      Lexes (byteLength front) body part := by
  obtain ⟨first, part, rfl⟩ := List.exists_cons_of_ne_nil hne
  obtain ⟨front, text, rfl, -, hrest, -⟩ := h.exists_append
  rw [List.cons_append] at hrest
  obtain ⟨gap, text, rfl, hstart, hrest⟩ := hrest.exists_start
  rw [Nat.zero_add, ← byteLength_append] at hstart
  rw [hstart, ← List.cons_append] at hrest
  obtain ⟨body, back, rfl, hbody, -, hstop, -⟩ := hrest.exists_append
  refine ⟨front ++ gap, body, back, ⟨(List.append_assoc _ _ _).symm, ?_, ?_⟩, hbody⟩
  · rw [List.head?_cons, Option.map_some, hstart]
  · rw [List.getLast?_cons, Option.map_some, Option.getD_some] at hstop
    rw [List.getLast?_cons, Option.map_some, hstop]

/-- Where a text starts only moves its tokens. -/
lemma moved (h : Lexes position text tokens) (position' : Nat) :
    ∃ tokens', tokens'.map bare = tokens.map bare ∧ Lexes position' text tokens' := by
  induction h generalizing position' with
  | finished => exact ⟨[], rfl, .finished⟩
  | @blank position c text tokens isBlank behind ih =>
    obtain ⟨tokens', hbare, hlexes⟩ := ih (position' + c.utf8Size)
    exact ⟨tokens', hbare, .blank isBlank hlexes⟩
  | @token token spelling back tokens leads behind ih =>
    let moved : Token := ⟨token.kind, token.text, position', position' + byteLength spelling⟩
    obtain ⟨tokens', hbare, hlexes⟩ := ih moved.stop
    have hfits : moved.Fits spelling back := by
      cases leads.fits with
      | word kind_eq nonempty unbroken => exact .word kind_eq nonempty unbroken
      | quoted kind_eq unquoted => exact .quoted kind_eq unquoted
      | operator kind_eq longest => exact .operator kind_eq longest
    have hleads : moved.Leads spelling back := ⟨hfits, rfl, leads.maximal⟩
    refine ⟨moved :: tokens', ?_, .token hleads hlexes⟩
    rw [List.map_cons, List.map_cons, hbare]
    rfl

/-- Each token of a text can be written by itself. -/
lemma lexeme (h : Lexes position text tokens) (token : Token) (htoken : token ∈ tokens) :
    Lexeme token.kind token.text token.spelling := by
  obtain ⟨_, _, _, _, _, _, hfits⟩ := h.exists_fits htoken
  exact hfits.lexeme

end Lexes

/-! ## Writing the tokens of a text -/

lemma spelling_congr (h : token'.bare = token.bare) : token'.spelling = token.spelling := by
  obtain ⟨hkind, htext⟩ := Prod.mk.inj h
  rw [Token.spelling, Token.spelling, hkind, htext]

lemma print_congr {tokens tokens' : List Token} (h : tokens'.map bare = tokens.map bare) :
    print tokens' = print tokens := by
  have hspelling : tokens'.map Token.spelling = tokens.map Token.spelling := by
    induction tokens generalizing tokens' with
    | nil => rw [List.map_eq_nil_iff.1 h]
    | cons token tokens ih =>
      obtain ⟨token', tokens', rfl, htoken, htokens⟩ := List.map_eq_cons_iff.1 h
      rw [List.map_cons, List.map_cons, spelling_congr htoken, ih htokens]
  rw [print, print, hspelling]

/-- A text with its tokens written anew.  A text without tokens is kept. -/
def respace (text : List Char) : List Char :=
  match tokenize text with
  | .ok tokens => print tokens
  | .error _ => text

lemma Lexes.filter_print {position : Nat} {text : List Char} {tokens : List Token}
    (h : Lexes position text tokens) :
    (print tokens).filter (!Text.isBlank ·) = text.filter (!Text.isBlank ·) := by
  induction h with
  | finished => rfl
  | blank isBlank _ ih => rw [ih, List.filter_cons_of_neg (by simp [isBlank])]
  | @token token spelling back tokens leads _ ih =>
    rw [List.filter_append, ← ih, ← leads.fits.spelling_eq]
    cases tokens with
    | nil => rw [print_singleton, print, List.map_nil, List.intercalate_nil, List.filter_nil,
        List.append_nil]
    | cons next tokens =>
      have hspace : [' '].filter (!Text.isBlank ·) = [] := rfl
      rw [print_cons (List.cons_ne_nil _ _), List.filter_append, List.filter_append, hspace,
        List.nil_append]

/-- New spacing changes nothing but blank characters. -/
lemma filter_respace (text : List Char) :
    (respace text).filter (!Text.isBlank ·) = text.filter (!Text.isBlank ·) := by
  rw [respace]
  cases htokens : tokenize text with
  | error position => rfl
  | ok tokens => exact (tokensAt_eq_ok_iff.1 htokens).filter_print

lemma respace_of_lexes {position : Nat} {text : List Char} {tokens : List Token}
    (h : Lexes position text tokens) : respace text = print tokens := by
  obtain ⟨tokens', hbare, hlexes⟩ := h.moved 0
  have htokens : tokenize text = .ok tokens' := tokensAt_eq_ok_iff.2 hlexes
  rw [respace, htokens]
  exact print_congr hbare

/-- The tokens between others are found again where they are written. -/
lemma exists_spans_print {first : Token} {part later : List Token}
    (h : ∀ token ∈ first :: (part ++ later), Lexeme token.kind token.text token.spelling)
    (hpart : part ≠ []) (hlater : later ≠ []) :
    ∃ first' part' later', first'.bare = first.bare ∧ part'.map bare = part.map bare ∧
      later'.map bare = later.map bare ∧
      tokenize (print (first :: (part ++ later))) = .ok (first' :: (part' ++ later')) ∧
      Instruction.Spans part' (print (first :: (part ++ later))) (first.spelling ++ [' '])
        (print part) ([' '] ++ print later) := by
  obtain ⟨hfirst, hrest⟩ := List.forall_mem_cons.1 h
  obtain ⟨hparts, hlaters⟩ := List.forall_mem_append.1 hrest
  have hprint : print (first :: (part ++ later)) =
      first.spelling ++ ([' '] ++ (print part ++ ([' '] ++ print later))) := by
    rw [print_cons (List.append_ne_nil_of_left_ne_nil hpart later), print_append hpart hlater]
  have hspace : allBlank [' '] = true := rfl
  have hgap := startsIn_blank (List.cons_ne_nil ' ' []) hspace
  -- from the end of the text to its start
  obtain ⟨later', hlater', hbehind, -, -⟩ :=
    (spaced_print hlater hlaters).lexes (startsIn_nil _)
      (@Lexes.finished (byteLength (first.spelling ++ [' ']) + byteLength (print part) +
        byteLength [' '] + byteLength (print later)))
  rw [List.append_nil, List.append_nil] at hbehind
  obtain ⟨part', hpart', hwithin, hhead, hlast⟩ :=
    (spaced_print hpart hparts).lexes (hgap _) (hbehind.blanks hspace)
  rw [byteLength_append, ← Nat.zero_add (byteLength first.spelling)] at hwithin
  have hlexes := Lexes.token (hfirst.leads (hgap _) 0) (hwithin.blanks hspace)
  rw [← hprint] at hlexes
  refine ⟨_, part', later', ?_, hpart', hlater', tokensAt_eq_ok_iff.2 hlexes, ?_, hhead, hlast⟩
  · simp [bare, spelled]
  · rw [hprint, List.append_assoc]

/-- Written tokens are found again. -/
lemma exists_tokenize_print {tokens : List Token}
    (h : ∀ token ∈ tokens, Lexeme token.kind token.text token.spelling) :
    ∃ tokens', tokenize (print tokens) = .ok tokens' ∧ tokens'.map bare = tokens.map bare := by
  cases tokens with
  | nil => exact ⟨[], rfl, rfl⟩
  | cons first tokens =>
    obtain ⟨tokens', hbare, hlexes, -, -⟩ :=
      (spaced_print (List.cons_ne_nil first tokens) h).lexes (startsIn_nil _)
        (@Lexes.finished (0 + byteLength (print (first :: tokens))))
    rw [List.append_nil, List.append_nil] at hlexes
    exact ⟨tokens', tokensAt_eq_ok_iff.2 hlexes, hbare⟩

end Token

/-! ## The instruction -/

/-- A condition that could not be split has its text with new spacing. -/
def Condition.respaced (condition : Condition) : Condition :=
  if condition.operator = "" then
    ⟨String.ofList (Token.respace condition.left.toList), "", condition.right⟩
  else condition

namespace Instruction

open Token

/-- An instruction with new spacing in the text of a condition that could not be split. -/
def respaced : Instruction → Instruction
  | conditional condition => .conditional condition.respaced
  | merge path => .merge path
  | other keyword => .other keyword

variable {text : List Char} {tokens tokens' condition condition' : List Token}

lemma readMerge_map_respaced (tokens : List Token) :
    (readMerge tokens).map respaced = readMerge tokens := by
  cases tokens with
  | nil => rfl
  | cons name tokens =>
    rw [readMerge]
    split <;> rfl

/-- A condition that could be split stays the same. -/
lemma respaced_of_splitCondition? {found : Condition}
    (h : splitCondition? (tokens.map bare) = some found)
    (hlexeme : ∀ token ∈ tokens, Lexeme token.kind token.text token.spelling) :
    found.respaced = found := by
  obtain ⟨operator, hmem, hbare⟩ := List.mem_map.1 (operator_mem_of_splitCondition? h)
  obtain ⟨hkind, htext⟩ := Prod.mk.inj hbare
  have hoperator := hlexeme operator hmem
  rw [hkind, htext] at hoperator
  generalize operator.spelling = spelling at hoperator
  refine if_neg fun hempty => ?_
  cases hoperator with
  | operator mem => exact Operator.ne_nil_of_mem_texts mem (by rw [hempty]; rfl)

/-- The condition of tokens that are written elsewhere: it is the same, or its text is the one that
is there. -/
lemma conditionOf_respaced {front body back text' front' back' : List Char} {position : Nat}
    (hspans : Spans condition text front body back) (hlexes : Lexes position body condition)
    (hspans' : Spans condition' text' front' (print condition) back')
    (hbare : condition'.map bare = condition.map bare) :
    conditionOf text' condition' =
      (conditionOf text condition).map Condition.respaced := by
  cases condition with
  | nil =>
    rw [List.map_eq_nil_iff.1 hbare]
    rfl
  | cons first condition =>
    obtain ⟨first', condition', rfl, -, -⟩ := List.map_eq_cons_iff.1 hbare
    rw [conditionOf_cons, conditionOf_cons, hspans.spanText_eq, hspans'.spanText_eq, hbare]
    cases hsplit : splitCondition? ((first :: condition).map bare) with
    | some found =>
      rw [Option.getD_some, Option.getD_some, Except.map,
        respaced_of_splitCondition? hsplit hlexes.lexeme]
    | none =>
      simp only [Option.getD_none, Except.map, Condition.respaced, if_true, String.toList_ofList,
        respace_of_lexes hlexes]

lemma readConditional_respaced {first first' : Token} (hlexes : Lexes 0 text (first :: tokens))
    (hprint : tokenize (print (first :: tokens)) = .ok (first' :: tokens'))
    (hbare : tokens'.map bare = tokens.map bare) :
    readConditional (print (first :: tokens)) tokens' =
      (readConditional text tokens).map respaced := by
  rw [readConditional, readConditional]
  cases hbefore : beforeLiterals? tokens with
  | none =>
    have hcongr := beforeLiterals?_congr hbare
    rw [hbefore, Option.map_none, Option.map_eq_none_iff] at hcongr
    rw [hcongr]
    rfl
  | some condition =>
    obtain ⟨later, rfl, hlater⟩ := exists_of_beforeLiterals? hbefore
    by_cases hcondition : condition = []
    · subst hcondition
      have hbefore' : beforeLiterals? tokens' = some [] :=
        @beforeLiterals?_append [] [] later tokens' hbefore rfl hbare
      rw [hbefore']
      rfl
    · obtain ⟨first'', condition', later', -, hcondition', hlater', hfound, hspans'⟩ :=
        exists_spans_print hlexes.lexeme hcondition hlater
      obtain ⟨rfl, rfl⟩ := List.cons.inj (Except.ok.inj (hprint.symm.trans hfound))
      obtain ⟨front, body, back, hspans, hbody⟩ :=
        Lexes.exists_spans (by rwa [List.singleton_append]) hcondition
      have hread := conditionOf_respaced hspans hbody hspans' hcondition'
      rw [beforeLiterals?_append hbefore hcondition' hlater']
      simp only [hread]
      cases conditionOf text condition <;> rfl

/-- The tokens of a text, written with one space between each and the next, are found again with the
same kinds and texts.  So what is written is the same instruction, up to the spacing in the text of
a condition that could not be split; new spacing changes nothing but blank characters. -/
theorem parse_print (h : tokenize text = .ok tokens) :
    (∃ tokens', tokenize (print tokens) = .ok tokens' ∧ tokens'.map bare = tokens.map bare) ∧
      parse (print tokens) = (parse text).map respaced ∧
      ∀ part, (respace part).filter (!Text.isBlank ·) = part.filter (!Text.isBlank ·) := by
  have hlexes : Lexes 0 text tokens := tokensAt_eq_ok_iff.1 h
  obtain ⟨tokens', hprint, hbare⟩ := exists_tokenize_print hlexes.lexeme
  refine ⟨⟨tokens', hprint, hbare⟩, ?_, filter_respace⟩
  rw [parse, parse, h, hprint]
  cases tokens with
  | nil =>
    rw [List.map_eq_nil_iff.1 hbare]
    rfl
  | cons first tokens =>
    obtain ⟨first', tokens', rfl, hfirst, htokens⟩ := List.map_eq_cons_iff.1 hbare
    simp only [isWord_congr hfirst, readMerge_congr htokens, (Prod.mk.inj hfirst).2]
    by_cases hmerge : first.isWord mergeKeyword
    · rw [if_pos hmerge, if_pos hmerge, readMerge_map_respaced]
    by_cases hif : first.isWord ifKeyword
    · rw [if_neg hmerge, if_pos hif, if_neg hmerge, if_pos hif,
        readConditional_respaced hlexes hprint htokens]
    · rw [if_neg hmerge, if_neg hif, if_neg hmerge, if_neg hif]
      rfl

/-- A condition with two operators, which cannot be split, and a literal in it with spaces of its
own. -/
theorem parse_print_unsplit :
    let text := "IF a=b<>\"c  d\"\t\"%iftrue%\"\"%iffalse%\"x!".toList
    let tokens : List Token := [⟨.word, "IF", 0, 2⟩, ⟨.word, "a", 3, 4⟩, ⟨.operator, "=", 4, 5⟩,
      ⟨.word, "b", 5, 6⟩, ⟨.operator, "<>", 6, 8⟩, ⟨.quoted, "c  d", 8, 14⟩,
      ⟨.quoted, "%iftrue%", 15, 25⟩, ⟨.quoted, "%iffalse%", 25, 36⟩, ⟨.word, "x!", 36, 38⟩]
    let written := "IF a = b <> \"c  d\" \"%iftrue%\" \"%iffalse%\" x!".toList
    tokenize text = .ok tokens ∧ print tokens = written ∧
      (∃ tokens', tokenize written = .ok tokens' ∧ tokens'.map bare = tokens.map bare) ∧
      parse text = .ok (.conditional ⟨"a=b<>\"c  d\"", "", ""⟩) ∧
      parse written = .ok (.conditional ⟨"a = b <> \"c  d\"", "", ""⟩) := by
  intro text tokens written
  have htokens : tokenize text = .ok tokens := by decide +kernel
  have hwritten : print tokens = written := by decide +kernel
  have hparse : parse text = .ok (.conditional ⟨"a=b<>\"c  d\"", "", ""⟩) := by decide +kernel
  have hrespaced : respaced (.conditional ⟨"a=b<>\"c  d\"", "", ""⟩) =
      .conditional ⟨"a = b <> \"c  d\"", "", ""⟩ := by
    decide +kernel
  obtain ⟨hfound, hread, -⟩ := parse_print htokens
  rw [hwritten] at hfound hread
  rw [hparse, Except.map, hrespaced] at hread
  exact ⟨htokens, hwritten, hfound, hparse, hread⟩

end Instruction

end WordFields
