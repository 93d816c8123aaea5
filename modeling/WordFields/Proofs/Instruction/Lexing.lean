import Mathlib.Algebra.Ring.Parity
import WordFields.Proofs.Instruction.Token
import WordFields.Proofs.Text.Position

/-!
# What a text begins with

A text is empty, or it begins with a blank character, a token or a quote that is never closed
(`Token.lexing_induction`).  `Token.Fits` says for each kind what a token is, in view of the text
behind it, and `Token.Leads` that it is the token with which a text begins.

`Token.Lexes` puts this together: the tokens of a text, said without the way in which they are
found.  `tokensAt_eq_ok_iff` states that these are the tokens that are found, and `tokensAt_total`
that the only fault is a quote without its partner.
-/

namespace WordFields

open Text

namespace Token

/-! ## Words -/

/-- A word is not broken by a character inside: by none that is blank, a quote or the beginning of
an operator, which may end in the text behind the word. -/
def Unbroken (word back : List Char) : Prop :=
  ∀ before c after, word = before ++ c :: after →
    isBlank c = false ∧ c ≠ '"' ∧ ¬ Operator.Begins (c :: (after ++ back))

lemma unbroken_nil (back : List Char) : Unbroken [] back := by
  intro before c after h
  simp at h

lemma unbroken_cons {c : Char} {word back : List Char} :
    Unbroken (c :: word) back ↔
      (isBlank c = false ∧ c ≠ '"' ∧ ¬ Operator.Begins (c :: (word ++ back))) ∧
        Unbroken word back := by
  constructor
  · intro h
    refine ⟨h [] c word rfl, fun before d after hword => ?_⟩
    exact h (c :: before) d after (by rw [hword, List.cons_append])
  · rintro ⟨hc, hword⟩ before d after h
    cases before with
    | nil =>
      rw [List.nil_append, List.cons.injEq] at h
      rwa [← h.1, ← h.2]
    | cons b before =>
      rw [List.cons_append, List.cons.injEq] at h
      exact hword before d after h.2

lemma endsWord_cons_iff {c : Char} {text : List Char} :
    endsWord (c :: text) = true ↔
      isBlank c = true ∨ c = '"' ∨ Operator.Begins (c :: text) := by
  have hbegins : (Operator.cutSpelling? (c :: text)).isSome = true ↔
      Operator.Begins (c :: text) := by
    rw [Option.isSome_iff_ne_none, Ne, Operator.cutSpelling?_eq_none_iff, not_not]
  simp [endsWord, hbegins, or_assoc]

lemma endsWord_cons_eq_false_iff {c : Char} {text : List Char} :
    endsWord (c :: text) = false ↔
      isBlank c = false ∧ c ≠ '"' ∧ ¬ Operator.Begins (c :: text) := by
  rw [← Bool.not_eq_true, endsWord_cons_iff]
  simp

/-- The word at the start of a text is the longest one that nothing breaks. -/
lemma cutWord_eq_iff {text word back : List Char} :
    cutWord text = (word, back) ↔
      text = word ++ back ∧ Unbroken word back ∧ endsWord back = true := by
  induction text generalizing word with
  | nil =>
    constructor
    · intro h
      cases h
      exact ⟨rfl, unbroken_nil _, rfl⟩
    · rintro ⟨h, -, -⟩
      obtain ⟨rfl, rfl⟩ := List.append_eq_nil_iff.1 h.symm
      rfl
  | cons c text ih =>
    cases hends : endsWord (c :: text) with
    | true =>
      rw [cutWord, if_pos hends]
      constructor
      · intro h
        cases h
        exact ⟨rfl, unbroken_nil _, hends⟩
      · rintro ⟨h, hword, -⟩
        cases word with
        | nil => rw [h, List.nil_append]
        | cons d word =>
          rw [List.cons_append, List.cons.injEq] at h
          obtain ⟨rfl, rfl⟩ := h
          rw [← Bool.not_eq_false, endsWord_cons_eq_false_iff] at hends
          exact absurd (unbroken_cons.1 hword).1 hends
    | false =>
      rw [cutWord, if_neg (by simp [hends])]
      rcases hcut : cutWord text with ⟨word', back'⟩
      simp only
      constructor
      · intro h
        cases h
        obtain ⟨rfl, hword, hback⟩ := ih.1 hcut
        exact ⟨rfl, unbroken_cons.2 ⟨endsWord_cons_eq_false_iff.1 hends, hword⟩, hback⟩
      · rintro ⟨h, hword, hback⟩
        cases word with
        | nil =>
          rw [List.nil_append] at h
          rw [← h, hends] at hback
          cases hback
        | cons d word =>
          rw [List.cons_append, List.cons.injEq] at h
          obtain ⟨rfl, rfl⟩ := h
          have hrest := ih.2 ⟨rfl, (unbroken_cons.1 hword).2, hback⟩
          rw [hcut] at hrest
          cases hrest
          rfl

/-! ## Tokens -/

/-- A token with a spelling is what its kind says, in front of the text `back`. -/
inductive Fits : Token → List Char → List Char → Prop
  | word {token : Token} {back : List Char} (kind_eq : token.kind = .word)
      (nonempty : token.text.toList ≠ []) (unbroken : Unbroken token.text.toList back) :
      Fits token token.text.toList back
  | quoted {token : Token} {back : List Char} (kind_eq : token.kind = .quoted)
      (unquoted : '"' ∉ token.text.toList) :
      Fits token ('"' :: (token.text.toList ++ ['"'])) back
  | operator {token : Token} {back : List Char} (kind_eq : token.kind = .operator)
      (longest : Operator.Longest token.text (token.text.toList ++ back)) :
      Fits token token.text.toList back

/-- A token with a spelling is the one with which the text from its position on begins; `back` is
the text behind it. -/
structure Leads (token : Token) (spelling back : List Char) : Prop where
  fits : token.Fits spelling back
  stop_eq : token.stop = token.start + byteLength spelling
  maximal : token.kind = .word → endsWord back = true

variable {token : Token} {spelling back : List Char}

lemma Fits.ne_nil (h : token.Fits spelling back) : spelling ≠ [] := by
  cases h with
  | word _ nonempty _ => exact nonempty
  | quoted _ _ => exact List.cons_ne_nil _ _
  | operator _ longest => exact Operator.ne_nil_of_mem_texts longest.mem

/-- A word ends in front of a literal and of an operator, and not in front of a word. -/
lemma Fits.endsWord_iff (h : token.Fits spelling back) :
    endsWord (spelling ++ back) = true ↔ token.kind ≠ .word := by
  cases h with
  | word kind_eq nonempty unbroken =>
    obtain ⟨c, word, hword⟩ := List.exists_cons_of_ne_nil nonempty
    rw [hword] at unbroken ⊢
    have hfirst := endsWord_cons_eq_false_iff.2 (unbroken_cons.1 unbroken).1
    simp [hfirst, kind_eq]
  | quoted kind_eq _ =>
    have hends : endsWord ('"' :: (token.text.toList ++ ['"']) ++ back) = true :=
      endsWord_cons_iff.2 (.inr (.inl rfl))
    rw [hends, kind_eq]
    exact iff_of_true rfl nofun
  | operator kind_eq longest =>
    obtain ⟨c, operator, hoperator⟩ :=
      List.exists_cons_of_ne_nil (Operator.ne_nil_of_mem_texts longest.mem)
    have hbegins := longest.begins_text
    rw [hoperator, List.cons_append] at hbegins ⊢
    rw [endsWord_cons_iff.2 (.inr (.inr hbegins)), kind_eq]
    exact iff_of_true rfl nofun

lemma Leads.lt (h : token.Leads spelling back) : token.start < token.stop := by
  have hpos := byteLength_pos h.fits.ne_nil
  have hstop := h.stop_eq
  omega

lemma Leads.eq_spelled (h : token.Leads spelling back) :
    spelled token.kind token.text.toList spelling token.start = token := by
  rw [spelled, String.ofList_toList, ← h.stop_eq]

/-- There is no quote in a token, or there are the two around a literal. -/
lemma Fits.even_count (h : token.Fits spelling back) : Even (spelling.count '"') := by
  cases h with
  | word _ _ unbroken =>
    rw [List.count_eq_zero.2 fun hmem => ?_]
    · exact Even.zero
    · obtain ⟨before, after, hsplit⟩ := List.append_of_mem hmem
      exact (unbroken before '"' after hsplit).2.1 rfl
  | quoted _ unquoted =>
    rw [List.count_cons_self, List.count_append, List.count_eq_zero.2 unquoted]
    exact ⟨1, rfl⟩
  | operator _ longest =>
    rw [List.count_eq_zero.2 fun hmem => ?_]
    · exact Even.zero
    · exact (Operator.not_blank_of_mem_texts longest.mem hmem).2 rfl

/-! ## Finding tokens -/

@[simp] lemma toList_text_spelled (kind : TokenKind) (text spelling : List Char) (start : Nat) :
    (spelled kind text spelling start).text.toList = text :=
  String.toList_ofList

lemma leads_word {word : List Char} (nonempty : word ≠ []) (unbroken : Unbroken word back)
    (ends : endsWord back = true) (start : Nat) :
    (spelled .word word word start).Leads word back := by
  have hfits : (spelled .word word word start).Fits
      (spelled .word word word start).text.toList back :=
    .word rfl (by rwa [toList_text_spelled]) (by rwa [toList_text_spelled])
  rw [toList_text_spelled] at hfits
  exact ⟨hfits, rfl, fun _ => ends⟩

lemma leads_quoted {literal : List Char} (unquoted : '"' ∉ literal) (back : List Char)
    (start : Nat) :
    (spelled .quoted literal ('"' :: (literal ++ ['"'])) start).Leads
      ('"' :: (literal ++ ['"'])) back := by
  have hfits : ∀ spelling, (spelled .quoted literal spelling start).Fits
      ('"' :: ((spelled .quoted literal spelling start).text.toList ++ ['"'])) back :=
    fun spelling => .quoted rfl (by rwa [toList_text_spelled])
  have hliteral := hfits ('"' :: (literal ++ ['"']))
  rw [toList_text_spelled] at hliteral
  exact ⟨hliteral, rfl, nofun⟩

lemma leads_operator {operator : List Char}
    (longest : Operator.Longest (String.ofList operator) (operator ++ back)) (start : Nat) :
    (spelled .operator operator operator start).Leads operator back := by
  have hfits : (spelled .operator operator operator start).Fits
      (spelled .operator operator operator start).text.toList back :=
    .operator rfl (by rwa [toList_text_spelled])
  rw [toList_text_spelled] at hfits
  exact ⟨hfits, rfl, nofun⟩

/-- A text that does not begin with a blank character begins with a token, or with a quote that is
never closed. -/
lemma exists_leads {c : Char} (hblank : isBlank c = false) (text : List Char) (position : Nat) :
    (c = '"' ∧ '"' ∉ text) ∨
      ∃ (token : Token) (spelling back : List Char), token.start = position ∧
        c :: text = spelling ++ back ∧ token.Leads spelling back := by
  by_cases hquote : c = '"'
  · by_cases hmem : '"' ∈ text
    · right
      obtain ⟨literal, back, rfl, hliteral⟩ := List.eq_append_cons_of_mem hmem
      refine ⟨_, _, back, rfl, ?_, leads_quoted hliteral back position⟩
      rw [hquote, List.cons_append, List.append_assoc, List.singleton_append]
    · exact .inl ⟨hquote, hmem⟩
  right
  cases hcut : Operator.cutSpelling? (c :: text) with
  | some cut =>
    obtain ⟨operator, back⟩ := cut
    obtain ⟨htext, hlongest⟩ := Operator.longest_of_cutSpelling? hcut
    rw [htext] at hlongest
    exact ⟨_, operator, back, rfl, htext, leads_operator hlongest position⟩
  | none =>
    rcases hword : cutWord text with ⟨word, back⟩
    obtain ⟨rfl, hunbroken, hends⟩ := cutWord_eq_iff.1 hword
    have hbegins := Operator.cutSpelling?_eq_none_iff.1 hcut
    exact ⟨_, c :: word, back, rfl, rfl, leads_word (List.cons_ne_nil _ _)
      (unbroken_cons.2 ⟨⟨hblank, hquote, hbegins⟩, hunbroken⟩) hends position⟩

/-- A text is what it begins with and what is behind that. -/
theorem lexing_induction {motive : Nat → List Char → Prop}
    (finished : ∀ position, motive position [])
    (blank : ∀ position c text, isBlank c = true → motive (position + c.utf8Size) text →
      motive position (c :: text))
    (unclosed : ∀ position text, '"' ∉ text → motive position ('"' :: text))
    (token : ∀ (token : Token) spelling back, token.Leads spelling back →
      motive token.stop back → motive token.start (spelling ++ back))
    (position : Nat) (text : List Char) : motive position text := by
  -- the text that is left is shorter each time
  induction hlength : text.length using Nat.strong_induction_on generalizing position text with
  | _ length ih =>
    subst hlength
    cases text with
    | nil => exact finished position
    | cons c text =>
      cases hblank : isBlank c with
      | true => exact blank position c text hblank (ih _ (Nat.lt_succ_self _) _ _ rfl)
      | false =>
        obtain ⟨rfl, hmem⟩ | ⟨found, spelling, back, rfl, htext, hleads⟩ :=
          exists_leads hblank text position
        · exact unclosed position text hmem
        · rw [htext] at ih ⊢
          have hpos := List.length_pos_iff.2 hleads.fits.ne_nil
          refine token found spelling back hleads (ih _ ?_ _ _ rfl)
          rw [List.length_append]
          omega

/-- What is found at a token is this token, and what is found behind it. -/
lemma tokensAt_leads (h : token.Leads spelling back) :
    tokensAt token.start (spelling ++ back) = (tokensAt token.stop back).map (token :: ·) := by
  have hspelled := h.eq_spelled
  cases h.fits with
  | word kind_eq nonempty unbroken =>
    obtain ⟨c, word, hword⟩ := List.exists_cons_of_ne_nil nonempty
    rw [kind_eq, hword] at hspelled
    rw [hword] at unbroken ⊢
    obtain ⟨⟨hblank, hquote, hbegins⟩, hrest⟩ := unbroken_cons.1 unbroken
    have hcut : cutWord (word ++ back) = (word, back) :=
      cutWord_eq_iff.2 ⟨rfl, hrest, h.maximal kind_eq⟩
    rw [List.cons_append, tokensAt_word hblank hquote (Operator.cutSpelling?_eq_none_iff.2 hbegins)]
    simp only [hcut, hspelled]
  | quoted kind_eq unquoted =>
    rw [kind_eq] at hspelled
    have hfound := tokensAt_quoted unquoted token.start back
    simp only [List.cons_append, hspelled] at hfound
    rw [List.cons_append, List.append_assoc, List.singleton_append, hfound]
  | operator kind_eq longest =>
    obtain ⟨c, rest, hoperator⟩ :=
      List.exists_cons_of_ne_nil (Operator.ne_nil_of_mem_texts longest.mem)
    have hmem : c ∈ token.text.toList := by
      rw [hoperator]
      exact List.mem_cons_self
    have hfirst := Operator.not_blank_of_mem_texts longest.mem hmem
    have hcut := longest.cutSpelling?
    rw [hoperator] at hcut hspelled ⊢
    rw [kind_eq] at hspelled
    rw [List.cons_append] at hcut ⊢
    rw [tokensAt_operator hfirst.1 hfirst.2 hcut]
    simp only [hspelled]

lemma tokensAt_unclosed {text : List Char} (h : '"' ∉ text) (position : Nat) :
    tokensAt position ('"' :: text) = .error position := by
  have hblank : ¬ isBlank '"' = true := by decide
  rw [tokensAt, tokenizeFrom, if_neg hblank, if_pos rfl]
  cases hcut : cut? ['"'] text with
  | none => rfl
  | some cut =>
    obtain ⟨literal, rest⟩ := cut
    have htext := (cut?_eq_some hcut rest).1
    exact absurd (by rw [htext]; simp) h

/-! ## All tokens of a text -/

/-- The tokens of a text from a position on, with nothing but blank characters between them. -/
inductive Lexes : Nat → List Char → List Token → Prop
  | finished {position : Nat} : Lexes position [] []
  | blank {position : Nat} {c : Char} {text : List Char} {tokens : List Token}
      (isBlank : isBlank c = true) (behind : Lexes (position + c.utf8Size) text tokens) :
      Lexes position (c :: text) tokens
  | token {token : Token} {spelling back : List Char} {tokens : List Token}
      (leads : token.Leads spelling back) (behind : Lexes token.stop back tokens) :
      Lexes token.start (spelling ++ back) (token :: tokens)

/-- The tokens that are found are the tokens of the text. -/
theorem tokensAt_eq_ok_iff {position : Nat} {text : List Char} {tokens : List Token} :
    tokensAt position text = .ok tokens ↔ Lexes position text tokens := by
  constructor
  · intro h
    induction position, text using lexing_induction generalizing tokens with
    | finished position =>
      cases h
      exact .finished
    | blank position c text hblank ih =>
      rw [tokensAt_blank hblank] at h
      exact .blank hblank (ih h)
    | unclosed position text hmem =>
      rw [tokensAt_unclosed hmem] at h
      cases h
    | token token spelling back hleads ih =>
      rw [tokensAt_leads hleads] at h
      cases hback : tokensAt token.stop back with
      | error position =>
        rw [hback] at h
        cases h
      | ok behind =>
        rw [hback] at h
        cases h
        exact .token hleads (ih hback)
  · intro h
    induction h with
    | finished => rfl
    | blank isBlank _ ih => rw [tokensAt_blank isBlank, ih]
    | token leads _ ih =>
      rw [tokensAt_leads leads, ih]
      rfl

/-- Each token stands at its place in the text. -/
lemma Lexes.exists_fits {position : Nat} {text : List Char} {tokens : List Token}
    (h : Lexes position text tokens) {found : Token} (hfound : found ∈ tokens) :
    ∃ front spelling back, text = front ++ (spelling ++ back) ∧
      found.start = position + byteLength front ∧
      found.stop = found.start + byteLength spelling ∧ found.Fits spelling back := by
  induction h with
  | finished => cases hfound
  | @blank position c text tokens _ _ ih =>
    obtain ⟨front, spelling, back, rfl, hstart, hrest⟩ := ih hfound
    refine ⟨c :: front, spelling, back, rfl, ?_, hrest⟩
    rw [hstart, byteLength_cons, Nat.add_assoc]
  | @token token spelling back tokens leads _ ih =>
    rcases List.mem_cons.1 hfound with rfl | hbehind
    · exact ⟨[], spelling, back, rfl, rfl, leads.stop_eq, leads.fits⟩
    · obtain ⟨front, spelling', back', rfl, hstart, hrest⟩ := ih hbehind
      refine ⟨spelling ++ front, spelling', back', by rw [List.append_assoc], ?_, hrest⟩
      rw [hstart, leads.stop_eq, byteLength_append, Nat.add_assoc]

/-- A text with quotes in pairs has tokens.  In any other text the last quote is not closed. -/
theorem tokensAt_total (position : Nat) (text : List Char) :
    (Even (text.count '"') → ∃ tokens, tokensAt position text = .ok tokens) ∧
      (Odd (text.count '"') → ∃ front back, text = front ++ '"' :: back ∧ '"' ∉ back ∧
        tokensAt position text = .error (position + byteLength front)) := by
  induction position, text using lexing_induction with
  | finished position => simp
  | blank position c text hblank ih =>
    have hne : c ≠ '"' := by
      rintro rfl
      revert hblank
      decide
    rw [List.count_cons_of_ne hne, tokensAt_blank hblank]
    refine ⟨ih.1, fun hodd => ?_⟩
    obtain ⟨front, back, rfl, hback, herror⟩ := ih.2 hodd
    refine ⟨c :: front, back, rfl, hback, ?_⟩
    rw [herror, byteLength_cons, Nat.add_assoc]
  | unclosed position text hmem =>
    rw [List.count_cons_self, List.count_eq_zero.2 hmem]
    exact ⟨fun heven => absurd heven (by decide),
      fun _ => ⟨[], text, rfl, hmem, tokensAt_unclosed hmem position⟩⟩
  | token token spelling back hleads ih =>
    have heven := hleads.fits.even_count
    rw [List.count_append, tokensAt_leads hleads]
    constructor
    · intro h
      obtain ⟨tokens, htokens⟩ := ih.1 ((Nat.even_add.1 h).1 heven)
      exact ⟨token :: tokens, by rw [htokens]; rfl⟩
    · intro h
      obtain ⟨front, rest, rfl, hrest, herror⟩ := ih.2 ((Nat.odd_add'.1 h).2 heven)
      refine ⟨spelling ++ front, rest, by rw [List.append_assoc], hrest, ?_⟩
      rw [herror, byteLength_append, hleads.stop_eq, Nat.add_assoc]
      rfl

end Token

end WordFields
