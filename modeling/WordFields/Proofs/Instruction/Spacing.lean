import WordFields.Proofs.Instruction.Lexing

/-!
# Tokens with blank characters between them

Where a blank character or the end of the text is behind a token, nothing else matters to it
(`Token.Lexeme`).  So a text in which blank characters separate the tokens has just these tokens
(`Token.Spaced.lexes`), and `Token.print` writes any tokens in this way.
-/

namespace WordFields

open Text

namespace Operator

lemma exists_mark_of_mem_texts {spelling : String} (h : spelling ∈ texts) :
    ∃ c ∈ spelling.toList, c ∈ ['=', '<', '>'] := by
  have hall : (texts.all fun spelling =>
      spelling.toList.any fun c => ['=', '<', '>'].contains c) = true := by decide
  obtain ⟨c, hc, hmark⟩ := List.any_eq_true.1 (List.all_eq_true.1 hall spelling h)
  exact ⟨c, hc, List.contains_iff_mem.1 hmark⟩

lemma mem_texts_of_mark {c : Char} (h : c ∈ ['=', '<', '>']) : String.ofList [c] ∈ texts := by
  simp only [List.mem_cons, List.not_mem_nil, or_false] at h
  rcases h with rfl | rfl | rfl <;> decide

/-- A spelling does not go on behind a text that a blank character ends. -/
lemma starts_of_starts_append {spelling : String} {text back : List Char} (h : spelling ∈ texts)
    (hback : StartsIn (isBlank · = true) back) (hstarts : spelling.toList <+: text ++ back) :
    spelling.toList <+: text := by
  rcases List.prefix_or_prefix_of_prefix hstarts (List.prefix_append text back) with
    hshort | ⟨tail, htail⟩
  · exact hshort
  rw [← htail, List.prefix_append_right_inj] at hstarts
  cases tail with
  | nil =>
    rw [List.append_nil] at htail
    rw [htail]
  | cons c tail =>
    obtain ⟨rest, rfl⟩ := hstarts
    have hblank : isBlank c = true := hback c rfl
    have hnot := (not_blank_of_mem_texts h (by rw [← htail]; simp : c ∈ spelling.toList)).1
    rw [hblank] at hnot
    cases hnot

end Operator

namespace Token

/-! ## Tokens by themselves -/

/-- How a token is written. -/
def spelling (token : Token) : List Char :=
  match token.kind with
  | .quoted => '"' :: (token.text.toList ++ ['"'])
  | .word | .operator => token.text.toList

/-- A spelling of a token that is the same in front of any blank character: a word without any
mark of a literal or an operator, a literal in its quotes, or an operator. -/
inductive Lexeme : TokenKind → String → List Char → Prop
  | word {text : String} (nonempty : text ≠ "")
      (plain : ∀ c ∈ text.toList, isBlank c = false ∧ c ∉ ['"', '=', '<', '>']) :
      Lexeme .word text text.toList
  | quoted {text : String} (unquoted : '"' ∉ text.toList) :
      Lexeme .quoted text ('"' :: (text.toList ++ ['"']))
  | operator {text : String} (mem : text ∈ Operator.texts) : Lexeme .operator text text.toList

/-- The characters of a word that is given can be looked at one by one. -/
lemma Lexeme.word_of_all {text : String} (nonempty : text ≠ "")
    (h : (text.toList.all fun c => !isBlank c && !List.contains ['"', '=', '<', '>'] c) = true) :
    Lexeme .word text text.toList := by
  refine .word nonempty fun c hc => ?_
  obtain ⟨hblank, hmarks⟩ := Bool.and_eq_true_iff.1 (List.all_eq_true.1 h c hc)
  rw [Bool.not_eq_true'] at hblank hmarks
  refine ⟨hblank, fun hmem => ?_⟩
  rw [List.contains_iff_mem.2 hmem] at hmarks
  cases hmarks

variable {kind : TokenKind} {text : String} {spelling back : List Char}

lemma endsWord_of_startsIn (h : StartsIn (isBlank · = true) back) : endsWord back = true := by
  cases back with
  | nil => rfl
  | cons c back => exact endsWord_cons_iff.2 (.inl (h c rfl))

lemma Lexeme.leads (h : Lexeme kind text spelling) (hback : StartsIn (isBlank · = true) back)
    (start : Nat) : (spelled kind text.toList spelling start).Leads spelling back := by
  cases h with
  | word nonempty plain =>
    refine leads_word (mt String.toList_eq_nil_iff.1 nonempty) ?_ (endsWord_of_startsIn hback) start
    intro before c after htext
    have hc := plain c (by rw [htext]; simp)
    refine ⟨hc.1, fun hquote => hc.2 (by simp [hquote]), ?_⟩
    rintro ⟨operator, hoperator, hbegins⟩
    rw [← List.cons_append] at hbegins
    have hwithin := Operator.starts_of_starts_append hoperator hback hbegins
    obtain ⟨mark, hmark, hmem⟩ := Operator.exists_mark_of_mem_texts hoperator
    have hinside : mark ∈ text.toList := by
      rw [htext]
      exact List.mem_append_right _ (hwithin.subset hmark)
    exact (plain mark hinside).2 (List.mem_cons_of_mem _ hmem)
  | quoted unquoted => exact leads_quoted unquoted back start
  | operator mem =>
    refine leads_operator ?_ start
    rw [String.ofList_toList]
    refine ⟨mem, List.prefix_append _ _, fun other hother hbegins => ?_⟩
    have hlength := (Operator.starts_of_starts_append hother hback hbegins).length_le
    rwa [String.length_toList, String.length_toList] at hlength

lemma Fits.spelling_eq {token : Token} (h : token.Fits spelling back) :
    token.spelling = spelling := by
  cases h with
  | word kind_eq _ _ => rw [Token.spelling, kind_eq]
  | quoted kind_eq _ => rw [Token.spelling, kind_eq]
  | operator kind_eq _ => rw [Token.spelling, kind_eq]

/-- Whatever is found in a text can be written by itself: a mark inside of a word would be an
operator. -/
lemma Fits.lexeme {token : Token} (h : token.Fits spelling back) :
    Lexeme token.kind token.text token.spelling := by
  rw [h.spelling_eq]
  cases h with
  | word kind_eq nonempty unbroken =>
    rw [kind_eq]
    refine .word (mt String.toList_eq_nil_iff.2 nonempty) fun c hc => ?_
    obtain ⟨before, after, hsplit⟩ := List.append_of_mem hc
    obtain ⟨hblank, hquote, hbegins⟩ := unbroken before c after hsplit
    refine ⟨hblank, fun hmark => hbegins ?_⟩
    have hmark' := Operator.mem_texts_of_mark ((List.mem_cons.1 hmark).resolve_left hquote)
    exact ⟨_, hmark', after ++ back, by rw [String.toList_ofList]; rfl⟩
  | quoted kind_eq unquoted =>
    rw [kind_eq]
    exact .quoted unquoted
  | operator kind_eq longest =>
    rw [kind_eq]
    exact .operator longest.mem

/-! ## Tokens in a row -/

/-- The kind of a token and its text, without its place. -/
def bare (token : Token) : TokenKind × String :=
  (token.kind, token.text)

/-- A text has tokens one after the other, with blank characters between each and the next. -/
inductive Spaced : List (TokenKind × String) → List Char → Prop
  | single {kind : TokenKind} {text : String} {spelling : List Char}
      (lexeme : Lexeme kind text spelling) : Spaced [(kind, text)] spelling
  | cons {kind : TokenKind} {text : String} {spelling gap body : List Char}
      {bares : List (TokenKind × String)} (lexeme : Lexeme kind text spelling)
      (nonempty : gap ≠ []) (blank : allBlank gap = true) (rest : Spaced bares body) :
      Spaced ((kind, text) :: bares) (spelling ++ (gap ++ body))

lemma startsIn_blank {gap : List Char} (hgap : gap ≠ []) (hblank : allBlank gap = true)
    (rest : List Char) : StartsIn (isBlank · = true) (gap ++ rest) := by
  obtain ⟨c, gap, rfl⟩ := List.exists_cons_of_ne_nil hgap
  rw [allBlank, List.all_cons, Bool.and_eq_true] at hblank
  exact startsIn_cons.2 hblank.1

lemma Lexes.blanks {gap : List Char} (hgap : allBlank gap = true) {position : Nat}
    {tokens : List Token} (h : Lexes (position + byteLength gap) back tokens) :
    Lexes position (gap ++ back) tokens := by
  induction gap generalizing position with
  | nil => exact h
  | cons c gap ih =>
    rw [allBlank, List.all_cons, Bool.and_eq_true] at hgap
    rw [byteLength_cons, ← Nat.add_assoc] at h
    exact .blank hgap.1 (ih hgap.2 h)

/-- Tokens with blank characters between them are found in their order, the first where the text
starts and the last where it stops. -/
theorem Spaced.lexes {bares : List (TokenKind × String)} {body : List Char}
    (h : Spaced bares body) (hback : StartsIn (isBlank · = true) back) {position : Nat}
    {tokens : List Token} (hbehind : Lexes (position + byteLength body) back tokens) :
    ∃ found, found.map bare = bares ∧ Lexes position (body ++ back) (found ++ tokens) ∧
      found.head?.map Token.start = some position ∧
      found.getLast?.map Token.stop = some (position + byteLength body) := by
  induction h generalizing position with
  | @single kind text spelling lexeme =>
    refine ⟨[spelled kind text.toList spelling position], ?_,
      .token (lexeme.leads hback position) hbehind, rfl, rfl⟩
    simp [bare, spelled]
  | @cons kind text spelling gap body bares lexeme nonempty blank _ ih =>
    rw [byteLength_append, byteLength_append, ← Nat.add_assoc, ← Nat.add_assoc] at hbehind
    obtain ⟨found, hfound, hlexes, hhead, hlast⟩ := ih hbehind
    have hspaced := hlexes.blanks blank
    rw [List.append_assoc, List.append_assoc]
    refine ⟨spelled kind text.toList spelling position :: found, ?_,
      .token (lexeme.leads (startsIn_blank nonempty blank _) position) hspaced, rfl, ?_⟩
    · rw [List.map_cons, hfound]
      simp [bare, spelled]
    · cases found with
      | nil => cases hhead
      | cons first found =>
        rw [List.getLast?_cons_cons, hlast]
        simp only [byteLength_append, Nat.add_assoc]

/-! ## Writing tokens -/

/-- Tokens written with one space between each and the next. -/
def print (tokens : List Token) : List Char :=
  List.intercalate [' '] (tokens.map Token.spelling)

lemma print_singleton (token : Token) : print [token] = token.spelling := by
  rw [print, List.map_singleton, List.intercalate_singleton]

lemma print_cons {token : Token} {tokens : List Token} (h : tokens ≠ []) :
    print (token :: tokens) = token.spelling ++ ([' '] ++ print tokens) := by
  rw [print, List.map_cons, List.intercalate_cons_of_ne_nil (by simpa using h), List.append_assoc]
  rfl

lemma print_append {tokens later : List Token} (h : tokens ≠ []) (hlater : later ≠ []) :
    print (tokens ++ later) = print tokens ++ ([' '] ++ print later) := by
  induction tokens with
  | nil => exact absurd rfl h
  | cons token tokens ih =>
    cases tokens with
    | nil => rw [List.singleton_append, print_cons hlater, print_singleton]
    | cons next tokens =>
      have hne : next :: tokens ≠ [] := List.cons_ne_nil _ _
      rw [List.cons_append, print_cons (List.append_ne_nil_of_left_ne_nil hne later), ih hne,
        print_cons hne]
      simp only [List.append_assoc]

lemma spaced_print {tokens : List Token} (hne : tokens ≠ [])
    (h : ∀ token ∈ tokens, Lexeme token.kind token.text token.spelling) :
    Spaced (tokens.map bare) (print tokens) := by
  induction tokens with
  | nil => exact absurd rfl hne
  | cons token tokens ih =>
    obtain ⟨htoken, htokens⟩ := List.forall_mem_cons.1 h
    cases tokens with
    | nil =>
      rw [print_singleton]
      exact .single htoken
    | cons next tokens =>
      have hrest := List.cons_ne_nil next tokens
      rw [print_cons hrest]
      exact .cons htoken (List.cons_ne_nil _ _) rfl (ih hrest htokens)

end Token

end WordFields
