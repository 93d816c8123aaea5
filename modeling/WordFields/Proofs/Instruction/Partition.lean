import WordFields.Instruction.Grammar
import WordFields.Proofs.Instruction.Lexing

/-!
# Tokens as parts of a text

The tokens of a text and the blank characters between them are the text.  `Token.IsPartition` says
this with the positions that tokens have: each of them stands at its place in the text and is what
its kind says, they come in order and do not overlap, and no character outside of them is anything
but blank.  Two words never touch, since a word goes on as long as nothing breaks it.
-/

namespace WordFields

open Text

namespace Token

/-- A token stands in a text behind `front` with a spelling, in front of `back`.  So it starts and
stops between two characters, and its spelling is what is between these positions. -/
structure Stands (token : Token) (text front spelling back : List Char) : Prop where
  text_eq : text = front ++ (spelling ++ back)
  start_eq : token.start = byteLength front
  stop_eq : token.stop = byteLength (front ++ spelling)
  slice_eq : slice token.start token.stop text = spelling

/-- The tokens are the parts of a text that are left without the blank characters between them. -/
structure IsPartition (text : List Char) (tokens : List Token) : Prop where
  stands : ∀ token ∈ tokens, ∃ front spelling back,
    token.Stands text front spelling back ∧ token.Fits spelling back
  nonempty : ∀ token ∈ tokens, token.start < token.stop
  ordered : tokens.Pairwise fun token later => token.stop ≤ later.start
  blank_outside : ∀ front c back, text = front ++ c :: back →
    (∀ token ∈ tokens, byteLength front < token.start ∨ token.stop ≤ byteLength front) →
      isBlank c = true
  words_apart : tokens.Pairwise fun token later =>
    token.kind = .word → later.kind = .word → token.stop < later.start

namespace Lexes

variable {position : Nat} {text : List Char} {tokens : List Token}

lemma le_start (h : Lexes position text tokens) {found : Token} (hfound : found ∈ tokens) :
    position ≤ found.start := by
  obtain ⟨front, -, -, -, hstart, -⟩ := h.exists_fits hfound
  omega

lemma pairwise_ordered (h : Lexes position text tokens) :
    tokens.Pairwise fun token later => token.stop ≤ later.start := by
  induction h with
  | finished => exact .nil
  | blank _ _ ih => exact ih
  | token _ behind ih => exact .cons (fun later hlater => behind.le_start hlater) ih

lemma isBlank_of_outside (h : Lexes position text tokens) {front back : List Char} {c : Char}
    (htext : text = front ++ c :: back)
    (houtside : ∀ token ∈ tokens,
      position + byteLength front < token.start ∨ token.stop ≤ position + byteLength front) :
    Text.isBlank c = true := by
  induction h generalizing front with
  | finished => simp at htext
  | @blank position d text tokens isBlank behind ih =>
    cases front with
    | nil =>
      rw [List.nil_append, List.cons.injEq] at htext
      rwa [← htext.1]
    | cons b front =>
      rw [List.cons_append, List.cons.injEq] at htext
      obtain ⟨rfl, htext⟩ := htext
      refine ih htext ?_
      rwa [byteLength_cons, ← Nat.add_assoc] at houtside
  | @token token spelling rest tokens leads behind ih =>
    obtain ⟨hfirst, hbehind⟩ := List.forall_mem_cons.1 houtside
    have hstop := leads.stop_eq
    rcases List.append_eq_append_iff.1 htext with ⟨mid, rfl, hrest⟩ | ⟨mid, hspelling, hrest⟩
    · refine ih hrest ?_
      rwa [byteLength_append, ← Nat.add_assoc, ← hstop] at hbehind
    · cases mid with
      | nil =>
        rw [List.append_nil] at hspelling
        refine @ih [] hrest.symm ?_
        rwa [← hspelling, ← hstop] at hbehind
      | cons d mid =>
        -- the character is inside of the token
        have hpos := byteLength_pos (List.cons_ne_nil d mid)
        rw [hspelling, byteLength_append] at hstop
        omega

/-- A word does not start where another one ends. -/
lemma lt_start_of_endsWord (h : Lexes position text tokens) (hends : endsWord text = true)
    {found : Token} (hfound : found ∈ tokens) (hkind : found.kind = .word) :
    position < found.start := by
  cases h with
  | finished => cases hfound
  | @blank _ c _ _ _ behind =>
    have hle := behind.le_start hfound
    have hpos := c.utf8Size_pos
    omega
  | token leads behind =>
    rcases List.mem_cons.1 hfound with rfl | hbehind
    · exact absurd hkind (leads.fits.endsWord_iff.1 hends)
    · exact Nat.lt_of_lt_of_le leads.lt (behind.le_start hbehind)

lemma pairwise_apart (h : Lexes position text tokens) :
    tokens.Pairwise fun token later =>
      token.kind = .word → later.kind = .word → token.stop < later.start := by
  induction h with
  | finished => exact .nil
  | blank _ _ ih => exact ih
  | token leads behind ih =>
    refine .cons (fun later hlater hkind hlaterKind => ?_) ih
    exact behind.lt_start_of_endsWord (leads.maximal hkind) hlater hlaterKind

lemma isPartition (h : Lexes 0 text tokens) : IsPartition text tokens where
  stands token htoken := by
    obtain ⟨front, spelling, back, htext, hstart, hstop, hfits⟩ := h.exists_fits htoken
    rw [Nat.zero_add] at hstart
    rw [hstart] at hstop
    refine ⟨front, spelling, back, ⟨htext, hstart, ?_, ?_⟩, hfits⟩
    · rw [hstop, byteLength_append]
    · rw [hstart, hstop, htext, slice_append]
  nonempty token htoken := by
    obtain ⟨front, spelling, back, -, -, hstop, hfits⟩ := h.exists_fits htoken
    have hpos := byteLength_pos hfits.ne_nil
    omega
  ordered := h.pairwise_ordered
  blank_outside front c back htext houtside := by
    refine h.isBlank_of_outside htext ?_
    rwa [Nat.zero_add]
  words_apart := h.pairwise_apart

end Lexes

/-- A text in which quotes come in pairs is divided into its tokens and blank characters.  In any
other text, and in no more, there is a fault, and it is the last quote. -/
theorem tokenize_partition (text : List Char) :
    (Even (text.count '"') →
      ∃ tokens, tokenize text = .ok tokens ∧ IsPartition text tokens) ∧
    (Odd (text.count '"') →
      ∃ front back, text = front ++ '"' :: back ∧ '"' ∉ back ∧
        tokenize text = .error (byteLength front) ∧
        Instruction.parse text = .error (.unterminatedQuote (byteLength front))) := by
  obtain ⟨heven, hodd⟩ := tokensAt_total 0 text
  rw [← tokenize_eq_tokensAt] at heven hodd
  refine ⟨fun h => ?_, fun h => ?_⟩
  · obtain ⟨tokens, htokens⟩ := heven h
    exact ⟨tokens, htokens, (tokensAt_eq_ok_iff.1 htokens).isPartition⟩
  · obtain ⟨front, back, htext, hback, herror⟩ := hodd h
    rw [Nat.zero_add] at herror
    exact ⟨front, back, htext, hback, herror, by rw [Instruction.parse, herror]⟩

/-- Words of characters with several bytes next to an operator that takes the mark before it, and a
literal that is not closed. -/
theorem tokenize_partition_accented :
    let text := "été!=\"à b\" ≤x!<= y".toList
    let tokens : List Token := [⟨.word, "été", 0, 5⟩, ⟨.operator, "!=", 5, 7⟩,
      ⟨.quoted, "à b", 7, 13⟩, ⟨.word, "≤x!", 14, 19⟩, ⟨.operator, "<=", 19, 21⟩,
      ⟨.word, "y", 22, 23⟩]
    let unclosed := "\"é\" \"b".toList
    (Even (text.count '"') ∧ tokenize text = .ok tokens ∧ IsPartition text tokens) ∧
      Odd (unclosed.count '"') ∧
      ∃ front back, unclosed = front ++ '"' :: back ∧ '"' ∉ back ∧ byteLength front = 5 ∧
        tokenize unclosed = .error 5 ∧
        Instruction.parse unclosed = .error (.unterminatedQuote 5) := by
  intro text tokens unclosed
  have heven : Even (text.count '"') := by decide +kernel
  have hodd : Odd (unclosed.count '"') := by decide +kernel
  have hfound : tokenize text = .ok tokens := by decide +kernel
  have hfault : tokenize unclosed = .error 5 := by decide +kernel
  obtain ⟨tokens', htokens, hpartition⟩ := (tokenize_partition text).1 heven
  rw [hfound, Except.ok.injEq] at htokens
  rw [← htokens] at hpartition
  obtain ⟨front, back, hsplit, hback, herror, hparse⟩ := (tokenize_partition unclosed).2 hodd
  rw [hfault, Except.error.injEq] at herror
  rw [← herror] at hparse
  exact ⟨⟨heven, hfound, hpartition⟩, hodd, front, back, hsplit, hback, herror.symm, hfault, hparse⟩

end Token

end WordFields
