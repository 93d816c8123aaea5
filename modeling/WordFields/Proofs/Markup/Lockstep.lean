import WordFields.Proofs.Markup.Building

/-!
# Reader and builder in lockstep

The reader keeps the names of the elements that are open, and the builder keeps the elements
themselves.  A text is read one event after the other, each of which is built before the next one is
read.  `Progress` is what both know between two events, and `Progress.advance` is one round of the
loop.  That `parse` reads all events first and builds them then makes no difference
(`parseChars_eq_iff`).

Both take the same elements to be open in every state that the loop comes to (`Reached.agrees`).  So
an end tag that gets by the reader fits the innermost element of the builder, and the builder's own
check of end tags never fails.
-/

namespace WordFields.Markup

open Text

/-! ## What is read is taken from the text -/

section

variable {start text content rest : List Char} {event : Event}

lemma suffix_of_after? {pattern : List Char} (h : after? pattern text = some rest) :
    rest <:+ text :=
  ⟨pattern, (after?_eq_some_iff.1 h).symm⟩

lemma suffix_of_cut? {pattern : List Char} (h : cut? pattern text = some (content, rest)) :
    rest <:+ text :=
  ⟨content ++ pattern, by rw [(cut?_eq_some h []).1, List.append_assoc]⟩

lemma suffix_of_append_cons (h : text = content ++ '>' :: rest) : rest <:+ text :=
  ⟨content ++ ['>'], by rw [h, List.append_assoc, List.singleton_append]⟩

lemma suffix_of_bind {opening closing : List Char}
    (h : (after? opening text).bind (cut? closing) = some (content, rest)) : rest <:+ text := by
  obtain ⟨middle, hafter, hcut⟩ := Option.bind_eq_some_iff.1 h
  exact (suffix_of_cut? hcut).trans (suffix_of_after? hafter)

lemma suffix_of_bind_cutDoctype?
    (h : (afterDoctype? text).bind (cutDoctype? 0) = some (content, rest)) : rest <:+ text := by
  obtain ⟨middle, hafter, hcut⟩ := Option.bind_eq_some_iff.1 h
  refine (suffix_of_append_cons (cutDoctype?_eq_some_iff.1 hcut).1).trans ?_
  unfold afterDoctype? at hafter
  split at hafter <;> cases hafter
  exact List.drop_suffix 7 text

lemma suffix_of_readBang (h : readBang start text = .ok (event, rest)) : rest <:+ text := by
  unfold readBang at h
  split at h
  · split at h
    next hcut =>
      cases h
      exact (suffix_of_bind hcut).trans (List.suffix_cons _ _)
    next => cases h
  · split at h
    next hcut =>
      cases h
      exact (suffix_of_bind hcut).trans (List.suffix_cons _ _)
    next => cases h
  · split at h
    · split at h
      next hcut =>
        split at h <;> cases h
        exact suffix_of_bind_cutDoctype? hcut
      next => cases h
    · cases h
  · cases h

lemma suffix_of_readInstruction (h : readInstruction start text = .ok (event, rest)) :
    rest <:+ text := by
  unfold readInstruction at h
  split at h
  · cases h
  · split at h
    next hcut =>
      cases h
      exact suffix_of_cut? hcut
    next => cases h

/-- Every event takes a character. -/
lemma length_lt_of_readEvent (htext : text ≠ []) (h : readEvent text = .ok (event, rest)) :
    rest.length < text.length := by
  obtain ⟨c, tail, rfl⟩ := List.exists_cons_of_ne_nil htext
  suffices hsuffix : rest <:+ tail from Nat.lt_succ_of_le hsuffix.length_le
  unfold readEvent at h
  split at h
  next heq =>
    cases heq
    exact (suffix_of_readBang h).trans (List.suffix_cons _ _)
  next heq =>
    cases heq
    exact (suffix_of_readInstruction h).trans (List.suffix_cons _ _)
  next heq =>
    cases heq
    split at h <;> cases h
    next hcut =>
      exact (suffix_of_append_cons (cutTag?_eq_some_iff.1 hcut).1).trans (List.suffix_cons _ _)
  next heq =>
    cases heq
    split at h <;> cases h
    next hcut => exact suffix_of_append_cons (cutTag?_eq_some_iff.1 hcut).1
  next hnot =>
    have hc : c ≠ '<' := fun heq => hnot tail (heq ▸ rfl)
    cases h
    rw [List.dropWhile_cons_of_pos (by simpa using hc)]
    exact List.dropWhile_suffix _

end

/-! ## The loop -/

/-- How far reading and building have come: the names that the reader takes to be open, the text
that it has not read, and the builder. -/
structure Progress where
  openNames : List (List Char)
  unread : List Char
  builder : Builder

namespace Progress

/-- One round in a text of `total` bytes: an event is read and built.  There is a result if the text
is at its end, or else if the event cannot be read or cannot be built. -/
def advance (total : Nat) (p : Progress) : Except Error Document ⊕ Progress :=
  if p.unread.isEmpty then .inl (p.builder.finish (.finished ⟨total, p.unread⟩))
  else
    match readEvent p.unread with
    | .error (fault, rest) => .inl (p.builder.finish (.failed fault ⟨total, rest⟩))
    | .ok (event, rest) =>
      match trackNames p.openNames event with
      | .error fault => .inl (p.builder.finish (.failed fault ⟨total, p.unread⟩))
      | .ok openNames =>
        match p.builder.step ⟨⟨total, p.unread⟩, event⟩ with
        | .error e => .inl (.error e)
        | .ok builder => .inr ⟨openNames, rest, builder⟩

end Progress

/-- The states that the loop comes to when a text is read. -/
inductive Reached (text : List Char) : Progress → Prop
  | start : Reached text ⟨[], dropByteOrderMark text, Builder.empty⟩
  | next {p next : Progress} (before : Reached text p)
      (advance_eq : p.advance (byteLength (dropByteOrderMark text)) = .inr next) :
    Reached text next

/-! ## Reading first, building then -/

/-- The document that a builder makes of a transcript. -/
def Builder.complete (b : Builder) (transcript : Transcript) : Except Error Document :=
  match b.run transcript.events with
  | .error e => .error e
  | .ok b => b.finish transcript.ending

section

variable {total steps : Nat} {p next : Progress}

/-- What was read and built in a round. -/
lemma Progress.exists_of_advance_eq_inr (h : p.advance total = .inr next) :
    p.unread ≠ [] ∧ ∃ event, readEvent p.unread = .ok (event, next.unread) ∧
      trackNames p.openNames event = .ok next.openNames ∧
        p.builder.step ⟨⟨total, p.unread⟩, event⟩ = .ok next.builder := by
  unfold advance at h
  split at h
  · cases h
  next hunread =>
    refine ⟨fun hnil => hunread (by rw [hnil]; rfl), ?_⟩
    split at h
    · cases h
    next event rest hread =>
      split at h
      · cases h
      next htrack =>
        split at h
        · cases h
        next hstep =>
          cases h
          exact ⟨event, hread, htrack, hstep⟩

lemma Progress.length_lt_of_advance (h : p.advance total = .inr next) :
    next.unread.length < p.unread.length := by
  obtain ⟨hne, event, hread, -⟩ := exists_of_advance_eq_inr h
  exact length_lt_of_readEvent hne hread

/-- Building what is read from some state on is going on from there round by round. -/
lemma Progress.complete_readFrom (p : Progress) :
    p.builder.complete (readFrom total (steps + 1) p.openNames p.unread) =
      match p.advance total with
      | .inl result => result
      | .inr next => next.builder.complete (readFrom total steps next.openNames next.unread) := by
  rw [readFrom, advance]
  by_cases hunread : p.unread.isEmpty
  · rw [if_pos hunread, if_pos hunread]
    rfl
  · rw [if_neg hunread, if_neg hunread]
    cases readEvent p.unread with
    | error failure => rfl
    | ok read =>
      obtain ⟨event, rest⟩ := read
      cases htrack : trackNames p.openNames event with
      | error fault =>
        simp only [htrack]
        rfl
      | ok openNames =>
        simp only [htrack, Builder.complete, Builder.run]
        cases p.builder.step ⟨⟨total, p.unread⟩, event⟩ <;> rfl

end

section

variable {text : List Char} {p : Progress}

/-- The result is the one of going on from any state that the loop comes to. -/
lemma Reached.exists_steps (h : Reached text p) : ∃ steps, p.unread.length < steps ∧
    parseChars text = p.builder.complete
      (readFrom (byteLength (dropByteOrderMark text)) steps p.openNames p.unread) := by
  induction h with
  | start => exact ⟨_, Nat.lt_succ_self _, rfl⟩
  | @next p next _ hadvance ih =>
    obtain ⟨steps, hsteps, hparse⟩ := ih
    obtain ⟨steps, rfl⟩ : ∃ n, steps = n + 1 := ⟨steps - 1, by omega⟩
    have hlt := Progress.length_lt_of_advance hadvance
    rw [Progress.complete_readFrom, hadvance] at hparse
    exact ⟨steps, by omega, hparse⟩

lemma Reached.parseChars_eq (h : Reached text p) {result : Except Error Document}
    (hadvance : p.advance (byteLength (dropByteOrderMark text)) = .inl result) :
    parseChars text = result := by
  obtain ⟨steps, hsteps, hparse⟩ := h.exists_steps
  obtain ⟨steps, rfl⟩ : ∃ n, steps = n + 1 := ⟨steps - 1, by omega⟩
  rw [hparse, Progress.complete_readFrom, hadvance]

/-- The loop comes to an end from every state. -/
lemma Reached.exists_result {text : List Char} {p : Progress} (h : Reached text p) :
    ∃ last result, Reached text last ∧
      last.advance (byteLength (dropByteOrderMark text)) = .inl result := by
  cases hadvance : p.advance (byteLength (dropByteOrderMark text)) with
  | inl result => exact ⟨p, result, h, hadvance⟩
  | inr next =>
    have hlt := Progress.length_lt_of_advance hadvance
    exact Reached.exists_result (h.next hadvance)
termination_by p.unread.length

/-- What a text is read as is the result of the loop. -/
theorem parseChars_eq_iff {result : Except Error Document} : parseChars text = result ↔
    ∃ p, Reached text p ∧ p.advance (byteLength (dropByteOrderMark text)) = .inl result := by
  constructor
  · rintro rfl
    obtain ⟨last, result, hlast, hadvance⟩ := Reached.exists_result (Reached.start : Reached text _)
    exact ⟨last, hlast, by rw [hadvance, hlast.parseChars_eq hadvance]⟩
  · exact fun ⟨p, hreached, hadvance⟩ => hreached.parseChars_eq hadvance

end

/-! ## Elements that are open -/

namespace Builder

variable {b b' : Builder}

/-- Opening an element adds a scope, closing one takes a scope away, and nothing else does. -/
lemma length_scopes_of_step {placed : PlacedEvent} (h : b.step placed = .ok b')
    (hscopes : b.scopes.length = b.openElements.length) :
    b'.scopes.length = b'.openElements.length := by
  obtain ⟨place, event⟩ := placed
  cases event with
  | opening tag =>
    obtain ⟨attributes, -, rfl, -⟩ := step_opening h
    exact congrArg Nat.succ hscopes
  | selfClosing tag =>
    obtain ⟨attributes, -, rfl, -⟩ := step_selfClosing h
    exact hscopes
  | closing name =>
    obtain ⟨opened, others, hopened, -, rfl, -⟩ := step_closing h
    rw [hopened] at hscopes
    rw [List.length_drop, hscopes]
    rfl
  | text raw =>
    obtain ⟨value, hmakes⟩ := makes_text h
    rw [hmakes.eq_addLeaf]
    exact hscopes
  | _ =>
    cases h
    exact hscopes

/-- What a builder refuses, end tags apart. -/
inductive Refuses : Error → Prop
  | malformed (description : String) (position : Option Nat) :
    Refuses (.malformed description position)
  | multipleRoots (position : Option Nat) : Refuses (.multipleRoots position)
  | strayText (position : Option Nat) :
    Refuses (.invalidStructure "Text content outside of the root element" position)

lemma not_refuses_closingTag (name : String) (position : Option Nat) :
    ¬ Refuses (.invalidStructure s!"Unexpected closing tag </{name}>" position) := by
  generalize hdescription : s!"Unexpected closing tag </{name}>" = description
  rintro ⟨⟩
  have hhead := congrArg (fun s => s.toList.head?) hdescription
  simp [toString] at hhead

lemma refuses_of_resolveValues {place : Place} {attributes : List RawAttribute} {e : Error}
    (h : resolveValues place attributes = .error e) : Refuses e := by
  induction attributes with
  | nil => cases h
  | cons raw attributes ih =>
    rw [resolveValues] at h
    split at h
    · cases h
      exact .malformed _ _
    · cases hrest : resolveValues place attributes with
      | error fault =>
        rw [hrest] at h
        cases h
        exact ih hrest
      | ok values =>
        rw [hrest] at h
        cases h

lemma refuses_of_addElement {place : Place} {tag : Tag} {e : Error}
    (h : b.addElement place tag = .error e) : Refuses e := by
  unfold addElement at h
  split at h
  · cases h
    exact .multipleRoots _
  · split at h
    next hattributes =>
      cases h
      unfold readAttributes at hattributes
      split at hattributes
      next hvalues =>
        cases hattributes
        exact refuses_of_resolveValues hvalues
      · cases hattributes
        exact .malformed _ _
      · cases hattributes
    · cases h

/-- An end tag that fits the names of the open elements is not refused. -/
lemma refuses_of_step {place : Place} {event : Event} {names : List (List Char)} {e : Error}
    (htrack : trackNames (b.openElements.map OpenElement.name) event = .ok names)
    (h : b.step ⟨place, event⟩ = .error e) : Refuses e := by
  cases event with
  | opening tag =>
    simp only [step] at h
    split at h
    next hadd =>
      cases h
      exact refuses_of_addElement hadd
    · cases h
  | selfClosing tag =>
    simp only [step] at h
    split at h
    next hadd =>
      cases h
      exact refuses_of_addElement hadd
    · cases h
  | closing name =>
    simp only [step, close] at h
    cases hopened : b.openElements with
    | nil =>
      rw [hopened] at htrack
      cases htrack
    | cons innermost others =>
      rw [hopened] at h htrack
      rw [List.map_cons, trackNames] at htrack
      split at htrack
      next hname =>
        simp only [if_pos hname] at h
        cases h
      next => cases htrack
  | text raw =>
    simp only [step, addText] at h
    split at h
    · cases h
      exact .malformed _ _
    · split at h <;> cases h
      exact .strayText _
  | _ => cases h

end Builder

namespace Progress

variable {total : Nat} {p next : Progress}

/-- Whether reader and builder take the same elements to be open, each with a scope. -/
structure Agrees (p : Progress) : Prop where
  names_eq : p.builder.openElements.map OpenElement.name = p.openNames
  length_scopes : p.builder.scopes.length = p.builder.openElements.length

lemma Agrees.advance (h : p.Agrees) (hadvance : p.advance total = .inr next) : next.Agrees := by
  obtain ⟨-, event, -, htrack, hstep⟩ := exists_of_advance_eq_inr hadvance
  have hnames := Builder.trackNames_of_step hstep
  rw [h.names_eq, htrack] at hnames
  exact ⟨(Except.ok.inj hnames).symm, Builder.length_scopes_of_step hstep h.length_scopes⟩

/-- The errors that the loop ends with where reader and builder agree. -/
lemma Agrees.error_cases (h : p.Agrees) {e : Error} (hadvance : p.advance total = .inl (.error e)) :
    Builder.Refuses e ∨ e = .emptyDocument ∨
      ∃ innermost others, p.openNames = innermost :: others ∧ p.unread = [] ∧
        e = .unexpectedEnd s!"closing tag </{String.ofList innermost}>" (some total) := by
  unfold Progress.advance at hadvance
  split at hadvance
  next hunread =>
    have hnil := List.isEmpty_iff.1 hunread
    simp only [Builder.finish, hnil, Sum.inl.injEq] at hadvance
    right
    split at hadvance
    next innermost others hopened =>
      cases hadvance
      refine .inr ⟨innermost.name, others.map OpenElement.name, ?_, hnil, rfl⟩
      rw [← h.names_eq, hopened, List.map_cons]
    next =>
      split at hadvance <;> cases hadvance
      exact .inl rfl
  next =>
    left
    split at hadvance
    · cases hadvance
      exact .malformed _ _
    · split at hadvance
      · cases hadvance
        exact .malformed _ _
      next htrack =>
        split at hadvance
        next hstep =>
          cases hadvance
          rw [← h.names_eq] at htrack
          exact Builder.refuses_of_step htrack hstep
        next => cases hadvance

/-- The loop ends inside of the innermost element that the reader takes to be open. -/
lemma Agrees.advance_of_nil {innermost : List Char} {others : List (List Char)} {b : Builder}
    (h : Agrees ⟨innermost :: others, [], b⟩) :
    Progress.advance total ⟨innermost :: others, [], b⟩ =
      .inl (.error (.unexpectedEnd s!"closing tag </{String.ofList innermost}>" (some total))) := by
  obtain ⟨opened, elements, hopened, rfl, -⟩ := List.map_eq_cons_iff.1 h.names_eq
  replace hopened : b.openElements = opened :: elements := hopened
  simp only [Progress.advance, Builder.finish, hopened]
  rfl

end Progress

/-- Reader and builder agree in every state that the loop comes to. -/
theorem Reached.agrees {text : List Char} {p : Progress} (h : Reached text p) : p.Agrees := by
  induction h with
  | start => exact ⟨rfl, rfl⟩
  | next _ hadvance ih => exact ih.advance hadvance

/-- The errors of a text, none of which is about an end tag that does not fit. -/
theorem parse_error_cases {text : String} {e : Error} (h : parse text = .error e) :
    Builder.Refuses e ∨ e = .emptyDocument ∨
      ∃ innermost others b, Reached text.toList ⟨innermost :: others, [], b⟩ ∧
        e = .unexpectedEnd s!"closing tag </{String.ofList innermost}>"
          (some (byteLength (dropByteOrderMark text.toList))) := by
  obtain ⟨⟨names, unread, b⟩, hreached, hadvance⟩ := parseChars_eq_iff.1 h
  refine (hreached.agrees.error_cases hadvance).imp_right (Or.imp_right ?_)
  rintro ⟨innermost, others, rfl, rfl, hend⟩
  exact ⟨innermost, others, b, hreached, hend⟩

/-- The builder never blames an end tag: neither for its name nor for coming where no element is
open.  Between any two events reader and builder take the same elements to be open, and each has a
scope.  A text is found to end too early, inside of the innermost element, exactly if the reader
comes to the end of the text while an element is open. -/
theorem parse_lockstep (text : String) :
    (∀ expected found position,
      parse text ≠ .error (.mismatchedEndTag expected found position)) ∧
    (∀ (name : String) position,
      parse text ≠ .error (.invalidStructure s!"Unexpected closing tag </{name}>" position)) ∧
    (∀ p, Reached text.toList p →
      p.builder.openElements.map OpenElement.name = p.openNames ∧
        p.builder.scopes.length = p.builder.openElements.length) ∧
    (∀ expected position, parse text = .error (.unexpectedEnd expected position) ↔
      ∃ innermost others b, Reached text.toList ⟨innermost :: others, [], b⟩ ∧
        expected = s!"closing tag </{String.ofList innermost}>" ∧
          position = some (byteLength (dropByteOrderMark text.toList))) := by
  refine ⟨fun expected found position h => ?_, fun name position h => ?_,
    fun p hp => ⟨hp.agrees.names_eq, hp.agrees.length_scopes⟩, fun expected position => ⟨?_, ?_⟩⟩
  · rcases parse_error_cases h with hrefuses | hempty | ⟨_, _, _, -, hend⟩
    · cases hrefuses
    · cases hempty
    · cases hend
  · rcases parse_error_cases h with hrefuses | hempty | ⟨_, _, _, -, hend⟩
    · exact Builder.not_refuses_closingTag name position hrefuses
    · cases hempty
    · cases hend
  · intro h
    rcases parse_error_cases h with hrefuses | hempty | ⟨innermost, others, b, hreached, hend⟩
    · cases hrefuses
    · cases hempty
    · cases hend
      exact ⟨innermost, others, b, hreached, rfl, rfl⟩
  · rintro ⟨innermost, others, b, hreached, rfl, rfl⟩
    exact hreached.parseChars_eq hreached.agrees.advance_of_nil

/-- The inner one of the two elements that are open at the end of this text is named. -/
theorem parse_lockstep_unclosed :
    ∃ b, Reached "<root><child/><item>".toList ⟨["item".toList, "root".toList], [], b⟩ ∧
      b.openElements.map OpenElement.name = ["item".toList, "root".toList] ∧
        b.scopes.length = b.openElements.length ∧
          parse "<root><child/><item>" =
            .error (.unexpectedEnd "closing tag </item>" (some 20)) := by
  have hreached : Reached "<root><child/><item>".toList
      ⟨["item".toList, "root".toList], [], _⟩ := .next (.next (.next .start rfl) rfl) rfl
  obtain ⟨-, -, hagree, hend⟩ := parse_lockstep "<root><child/><item>"
  obtain ⟨hnames, hscopes⟩ := hagree _ hreached
  exact ⟨_, hreached, hnames, hscopes, (hend _ _).2 ⟨_, _, _, hreached, rfl, rfl⟩⟩

end WordFields.Markup
