import Mathlib.Data.List.DropRight
import WordFields.Markup.Reader
import WordFields.Proofs.Text.Search

/-!
# Where markup ends

A tag ends at the first `>` outside quotes and a document type declaration at the `>` that balances
the brackets in it.  Both are found by a machine that goes over the text (`cut_eq_some_iff`), so
whether a text can stand between the delimiters of such a construct is decided by the text alone:
`Closes` and `Balances` are the two conditions, and `EndsAt` is the one for constructs that end where
a pattern is.
-/

namespace WordFields.Markup

open Text

/-! ## Machines -/

/-- A text is cut at the first character that a machine cannot go on with. -/
lemma cut_eq_some_iff {σ : Type} (step : σ → Char → Option σ)
    {cut : σ → List Char → Option (List Char × List Char)} (hnil : ∀ state, cut state [] = none)
    (hcons : ∀ state c text, cut state (c :: text) =
      (step state c).elim (some ([], text)) fun next =>
        (cut next text).map fun (content, rest) => (c :: content, rest))
    {state : σ} {text content rest : List Char} :
    cut state text = some (content, rest) ↔
      ∃ last c, text = content ++ c :: rest ∧ content.foldlM step state = some last ∧
        step last c = none := by
  induction text generalizing state content with
  | nil => simp [hnil]
  | cons c text ih =>
    rw [hcons]
    cases hstep : step state c with
    | none =>
      cases content with
      | nil => simp [hstep, eq_comm]
      | cons d content =>
        constructor
        · rintro ⟨⟩
        · rintro ⟨last, e, htext, hfold, -⟩
          obtain ⟨rfl, -⟩ := List.cons.inj htext
          simp [hstep] at hfold
    | some next =>
      cases content with
      | nil =>
        suffices text = rest → step state c ≠ none by simpa using this
        simp [hstep]
      | cons d content =>
        simp only [Option.elim_some, Option.map_eq_some_iff, Prod.exists, Prod.mk.injEq,
          List.cons.injEq, List.cons_append, List.foldlM_cons]
        constructor
        · rintro ⟨content', rest', hcut, ⟨rfl, rfl⟩, rfl⟩
          obtain ⟨last, e, htext, hfold, hlast⟩ := ih.1 hcut
          exact ⟨last, e, ⟨rfl, htext⟩, by simpa [hstep] using hfold, hlast⟩
        · rintro ⟨last, e, ⟨rfl, htext⟩, hfold, hlast⟩
          rw [hstep] at hfold
          exact ⟨content, rest, ih.2 ⟨last, e, htext, hfold, hlast⟩, ⟨rfl, rfl⟩, rfl⟩

/-- The quotation state after a character of a tag.  An unquoted `>` is none. -/
def tagStep : Option Char → Char → Option (Option Char)
  | none, c => if c = '>' then none else some (if c = '"' ∨ c = '\x27' then some c else none)
  | some quote, c => some (if c = quote then none else some quote)

/-- A text in which quotes pair up and no `>` is outside of them. -/
def Closes (content : List Char) : Prop :=
  content.foldlM tagStep none = some none

instance (content : List Char) : Decidable (Closes content) :=
  inferInstanceAs (Decidable (content.foldlM tagStep none = some none))

lemma cutTag?_eq_some_iff {text content rest : List Char} :
    cutTag? none text = some (content, rest) ↔ text = content ++ '>' :: rest ∧ Closes content := by
  have hcons : ∀ quote c text, cutTag? quote (c :: text) =
      (tagStep quote c).elim (some ([], text)) fun next =>
        (cutTag? next text).map fun (content, rest) => (c :: content, rest) := by
    intro quote c text
    cases quote with
    | none => by_cases hc : c = '>' <;> simp [cutTag?, tagStep, hc]
    | some quote => simp [cutTag?, tagStep]
  have hstop : ∀ quote c, tagStep quote c = none ↔ quote = none ∧ c = '>' := by
    intro quote c
    cases quote <;> simp [tagStep]
  rw [cut_eq_some_iff tagStep (fun quote => by cases quote <;> rfl) hcons, Closes]
  simp only [hstop]
  constructor
  · rintro ⟨-, -, htext, hfold, rfl, rfl⟩
    exact ⟨htext, hfold⟩
  · rintro ⟨htext, hfold⟩
    exact ⟨none, '>', htext, hfold, rfl, rfl⟩

/-- The number of open angle brackets after a character of a document type declaration. -/
def doctypeStep (depth : Nat) (c : Char) : Option Nat :=
  if c = '>' then
    match depth with
    | 0 => none
    | depth + 1 => some depth
  else some (if c = '<' then depth + 1 else depth)

/-- A text in which angle brackets pair up. -/
def Balances (content : List Char) : Prop :=
  content.foldlM doctypeStep 0 = some 0

lemma cutDoctype?_eq_some_iff {text content rest : List Char} :
    cutDoctype? 0 text = some (content, rest) ↔
      text = content ++ '>' :: rest ∧ Balances content := by
  have hcons : ∀ depth c text, cutDoctype? depth (c :: text) =
      (doctypeStep depth c).elim (some ([], text)) fun next =>
        (cutDoctype? next text).map fun (content, rest) => (c :: content, rest) := by
    intro depth c text
    by_cases hc : c = '>'
    · cases depth <;> simp [cutDoctype?, doctypeStep, hc]
    · simp [cutDoctype?, doctypeStep, hc]
  have hstop : ∀ depth c, doctypeStep depth c = none ↔ depth = 0 ∧ c = '>' := by
    intro depth c
    by_cases hc : c = '>'
    · cases depth <;> simp [doctypeStep, hc]
    · simp [doctypeStep, hc]
  rw [cut_eq_some_iff doctypeStep (fun depth => by cases depth <;> rfl) hcons, Balances]
  simp only [hstop]
  constructor
  · rintro ⟨-, -, htext, hfold, rfl, rfl⟩
    exact ⟨htext, hfold⟩
  · rintro ⟨htext, hfold⟩
    exact ⟨0, '>', htext, hfold, rfl, rfl⟩

/-- Characters that are no brackets do not matter. -/
lemma foldlM_doctypeStep_of_forall {content : List Char} (h : ∀ c ∈ content, c ≠ '<' ∧ c ≠ '>')
    (depth : Nat) : content.foldlM doctypeStep depth = some depth := by
  induction content with
  | nil => rfl
  | cons c content ih =>
    obtain ⟨hlt, hgt⟩ := h c List.mem_cons_self
    have hstep : doctypeStep depth c = some depth := by simp [doctypeStep, hlt, hgt]
    rw [List.foldlM_cons, hstep]
    exact ih fun d hd => h d (List.mem_cons_of_mem _ hd)

lemma balances_append_iff {front content back : List Char}
    (hfront : ∀ c ∈ front, c ≠ '<' ∧ c ≠ '>') (hback : ∀ c ∈ back, c ≠ '<' ∧ c ≠ '>') :
    Balances (front ++ (content ++ back)) ↔ Balances content := by
  have hend : ∀ depth, List.foldlM doctypeStep depth back = some depth :=
    foldlM_doctypeStep_of_forall hback
  simp [Balances, foldlM_doctypeStep_of_forall hfront, hend]

/-! ## Parts of a tag -/

/-- Only the two quotes begin a quotation. -/
lemma quote_of_foldlM_tagStep {content : List Char} {quote : Char}
    (h : content.foldlM tagStep none = some (some quote)) : quote = '"' ∨ quote = '\x27' := by
  suffices ∀ first : Option Char, (∀ q, first = some q → q = '"' ∨ q = '\x27') →
      content.foldlM tagStep first = some (some quote) → quote = '"' ∨ quote = '\x27' from
    this none (fun _ hq => by cases hq) h
  clear h
  induction content with
  | nil => exact fun first hfirst h => hfirst quote (Option.some.inj h)
  | cons c content ih =>
    intro first hfirst h
    rw [List.foldlM_cons] at h
    cases first with
    | none =>
      by_cases hc : c = '>'
      · simp [tagStep, hc] at h
      · simp only [tagStep, if_neg hc] at h
        refine ih _ (fun q hq => ?_) h
        split at hq
        next hquote =>
          cases hq
          exact hquote
        next => cases hq
    | some quote' =>
      refine ih _ (fun q hq => ?_) h
      split at hq
      · cases hq
      · exact hfirst q hq

lemma foldlM_tagStep_ne_none {front back : List Char} (h : Closes (front ++ back)) :
    front.foldlM tagStep none ≠ none := by
  intro hnone
  rw [Closes, List.foldlM_append, hnone] at h
  cases h

/-- Where quotes pair up they do so without an end that has none. -/
lemma closes_of_append {front back : List Char} (hback : ∀ c ∈ back, c ≠ '"' ∧ c ≠ '\x27')
    (h : Closes (front ++ back)) : Closes front := by
  rw [Closes, List.foldlM_append] at h
  obtain ⟨last, hlast, hrest⟩ := Option.bind_eq_some_iff.1 h
  cases last with
  | none => exact hlast
  | some quote =>
    have hquote := quote_of_foldlM_tagStep hlast
    suffices List.foldlM tagStep (some quote) back = some (some quote) by
      rw [this] at hrest
      cases hrest
    clear hrest h
    induction back with
    | nil => rfl
    | cons c back ih =>
      obtain ⟨hc, hback⟩ := List.forall_mem_cons.1 hback
      have hne : c ≠ quote := by
        rintro rfl
        exact hquote.elim hc.1 hc.2
      rw [List.foldlM_cons]
      simpa [tagStep, hne] using ih hback

lemma closes_append_slash {content : List Char} (h : Closes content) :
    Closes (content ++ ['/']) := by
  rw [Closes] at h
  rw [Closes, List.foldlM_append, h]
  rfl

lemma Closes.append {front back : List Char} (hfront : Closes front) (hback : Closes back) :
    Closes (front ++ back) := by
  rw [Closes] at hfront
  rwa [Closes, List.foldlM_append, hfront]

lemma closes_flatMap {α : Type} {items : List α} {write : α → List Char}
    (h : ∀ a ∈ items, Closes (write a)) : Closes (items.flatMap write) := by
  induction items with
  | nil => rfl
  | cons a items ih =>
    obtain ⟨hhead, htail⟩ := List.forall_mem_cons.1 h
    exact hhead.append (ih htail)

/-- A character that neither opens a quotation nor ends a tag. -/
def IsPlain (c : Char) : Prop :=
  c ≠ '"' ∧ c ≠ '\x27' ∧ c ≠ '>'

instance : DecidablePred IsPlain := fun c =>
  inferInstanceAs (Decidable (c ≠ '"' ∧ c ≠ '\x27' ∧ c ≠ '>'))

lemma closes_of_isPlain {content : List Char} (h : ∀ c ∈ content, IsPlain c) :
    Closes content := by
  induction content with
  | nil => rfl
  | cons c content ih =>
    obtain ⟨⟨hdouble, hsingle, hend⟩, hcontent⟩ := List.forall_mem_cons.1 h
    have hstep : tagStep none c = some none := by simp [tagStep, hdouble, hsingle, hend]
    rw [Closes, List.foldlM_cons, hstep]
    exact ih hcontent

lemma closes_quoted {value : List Char} (h : '"' ∉ value) :
    Closes ('"' :: (value ++ ['"'])) := by
  suffices List.foldlM tagStep (some '"') value = some (some '"') by
    rw [Closes, List.foldlM_cons, show tagStep none '"' = some (some '"') from rfl]
    rw [Option.bind_eq_bind, Option.bind_some, List.foldlM_append, this]
    rfl
  induction value with
  | nil => rfl
  | cons c value ih =>
    obtain ⟨hc, hvalue⟩ := not_or.1 (mt List.mem_cons.2 h)
    have hstep : tagStep (some '"') c = some (some '"') := by simp [tagStep, Ne.symm hc]
    rw [List.foldlM_cons, hstep]
    exact ih hvalue

lemma not_quote_of_isSpace {c : Char} (h : isSpace c = true) : c ≠ '"' ∧ c ≠ '\x27' := by
  constructor <;>
    · rintro rfl
      exact absurd h (by decide)

/-! ## Names in end tags -/

lemma closes_endTagName {content : List Char} (h : Closes content) :
    Closes (endTagName content) := by
  unfold endTagName
  split
  · exact h
  · refine @closes_of_append _ (content.reverse.takeWhile isSpace).reverse (fun c hc => ?_) ?_
    · exact not_quote_of_isSpace (List.all_eq_true.1 List.all_takeWhile c (List.mem_reverse.1 hc))
    · rwa [← List.reverse_append, List.takeWhile_append_dropWhile, List.reverse_reverse]

/-- A name without spaces is what an end tag says it is. -/
lemma endTagName_eq_self {name : List Char} (h : ∀ c ∈ name, isSpace c = false) :
    endTagName name = name := by
  unfold endTagName
  split
  · rfl
  · have hstop : name.reverse.dropWhile isSpace = name.reverse := by
      rw [List.dropWhile_eq_self_iff]
      intro hlength
      have hmem := List.mem_reverse.1 (List.getElem_mem hlength)
      exact Bool.eq_false_iff.1 (h _ hmem)
    rw [hstop, List.reverse_reverse]

lemma endTagName_endTagName (content : List Char) :
    endTagName (endTagName content) = endTagName content := by
  by_cases hall : content.all isSpace = true
  · simp only [endTagName, if_pos hall]
  · have hname : endTagName content = (content.reverse.dropWhile isSpace).reverse := by
      rw [endTagName, if_neg hall]
    rw [hname, endTagName]
    split
    · rfl
    · rw [List.reverse_reverse, List.dropWhile_idempotent]

/-! ## Patterns -/

/-- A text that ends where a pattern behind it begins. -/
def EndsAt (pattern content : List Char) : Prop :=
  ∀ rest, cut? pattern (content ++ (pattern ++ rest)) = some (content, rest)

lemma endsAt_of_cut? {pattern text content rest : List Char}
    (h : cut? pattern text = some (content, rest)) : EndsAt pattern content :=
  fun rest' => (cut?_eq_some h rest').2

/-- A text without a pattern in it ends where the pattern comes, if the last character of the
pattern is nowhere else in it: no occurrence is across the end of the text then. -/
lemma endsAt_of_absent {front content : List Char} {last : Char} (hlast : last ∉ front)
    (h : ¬ front ++ [last] <:+: content) : EndsAt (front ++ [last]) content := by
  intro rest
  induction content with
  | nil => exact cut?_append_self _ _
  | cons c content ih =>
    have hnone : after? (front ++ [last]) (c :: (content ++ (front ++ [last] ++ rest))) = none := by
      by_contra hsome
      obtain ⟨tail, htail⟩ := Option.ne_none_iff_exists'.1 hsome
      have htext : (c :: content) ++ (front ++ [last] ++ rest) = front ++ [last] ++ tail :=
        after?_eq_some_iff.1 htail
      rcases List.append_eq_append_iff.1 htext with ⟨mid, hpattern, hrest⟩ | ⟨mid, hcontent, -⟩
      · rcases List.eq_nil_or_concat mid with rfl | ⟨mid, d, rfl⟩
        · rw [List.append_nil] at hpattern
          exact h (hpattern ▸ List.infix_refl _)
        · rw [List.concat_eq_append, ← List.append_assoc] at hpattern
          obtain ⟨hfront, hd⟩ := List.append_inj' hpattern rfl
          -- what is left of the pattern is in front of its last character
          have hfull : mid ++ [d] ++ tail = front ++ ([last] ++ rest) := by
            rw [← List.concat_eq_append, ← hrest, List.append_assoc]
          have hstart : mid ++ [d] <+: front :=
            List.prefix_of_prefix_length_le ⟨tail, hfull⟩ ⟨_, rfl⟩ (by rw [hfront]; simp)
          obtain rfl : last = d := (List.cons.inj hd).1
          exact hlast (hstart.subset (by simp))
      · exact h ⟨[], mid, by rw [List.nil_append, hcontent]⟩
    have hrest := ih fun hoccurs => h (hoccurs.trans (List.suffix_cons c content).isInfix)
    rw [List.cons_append, cut?, hnone]
    simp only [hrest, Option.map_some]

end WordFields.Markup
