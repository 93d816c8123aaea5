import WordFields.Proofs.Markup.Spelling

/-!
# Texts are read as they are written

The events of a text are readable, and no two texts are next to each other, since a text goes on up
to the next `<`.  The other way round, events that are written one behind the other are read again:
if the reader comes to the end of them, it has read each as `Event.reread` says
(`events_of_readFrom_markup`), and it does come to the end if no event looks like another one and
end tags fit (`readFrom_markup_finished`).
-/

namespace WordFields.Markup

open Text

/-! ## What the reader gives -/

/-- Whether a text comes first. -/
def textFirst (events : List Event) : Bool :=
  events.head?.any Event.isText

/-- Whether no two texts are next to each other. -/
def Separated : List Event → Prop
  | [] => True
  | event :: events => (event.isText = true → textFirst events = false) ∧ Separated events

lemma Separated.append {events events' : List Event} (h : Separated events)
    (h' : Separated events') (hfirst : textFirst events' = false) :
    Separated (events ++ events') := by
  induction events with
  | nil => exact h'
  | cons event events ih =>
    refine ⟨fun htext => ?_, ih h.2⟩
    have hnext := h.1 htext
    cases events with
    | nil => exact hfirst
    | cons next events => exact hnext

lemma separated_of_append {events events' : List Event} (h : Separated (events ++ events')) :
    Separated events ∧ Separated events' := by
  induction events with
  | nil => exact ⟨trivial, h⟩
  | cons event events ih =>
    obtain ⟨hevents, hevents'⟩ := ih h.2
    refine ⟨⟨fun htext => ?_, hevents⟩, hevents'⟩
    have hnext := h.1 htext
    cases events with
    | nil => rfl
    | cons next events => exact hnext

/-- Events that are read one after the other from the start of a text. -/
inductive Transcribed : List Char → List Event → Prop
  | nil (text : List Char) : Transcribed text []
  | cons {text rest : List Char} {event : Event} {events : List Event} (ne_nil : text ≠ [])
      (read : readEvent text = .ok (event, rest)) (tail : Transcribed rest events) :
    Transcribed text (event :: events)

theorem transcribed_readFrom (total steps : Nat) (names : List (List Char)) (text : List Char) :
    Transcribed text ((readFrom total steps names text).events.map PlacedEvent.event) := by
  induction steps generalizing names text with
  | zero => exact .nil text
  | succ steps ih =>
    rw [readFrom]
    split
    · exact .nil text
    next htext =>
      split
      · exact .nil text
      next event rest hread =>
        split
        · exact .nil text
        next names' _ =>
          have hne : text ≠ [] := fun heq => htext (by rw [heq]; rfl)
          exact .cons hne hread (ih names' rest)

lemma Transcribed.readable {text : List Char} {events : List Event} (h : Transcribed text events) :
    ∀ event ∈ events, event.Readable := by
  induction h with
  | nil => exact fun event hevent => absurd hevent List.not_mem_nil
  | cons ne_nil read _ ih =>
    exact List.forall_mem_cons.2 ⟨(reads_of_readEvent ne_nil read).readable, ih⟩

/-- What is read behind a text is no text. -/
lemma Transcribed.textFirst_eq {text : List Char} {events : List Event}
    (h : Transcribed text events) (hbegins : StartsIn (· = '<') text) :
    textFirst events = false := by
  cases h with
  | nil => rfl
  | cons ne_nil read tail =>
    obtain ⟨c, text, rfl⟩ := List.exists_cons_of_ne_nil ne_nil
    obtain rfl : c = '<' := hbegins c rfl
    exact (reads_of_readEvent ne_nil read).isText_eq rfl

lemma Transcribed.separated {text : List Char} {events : List Event} (h : Transcribed text events) :
    Separated events := by
  induction h with
  | nil => trivial
  | cons ne_nil read tail ih =>
    exact ⟨fun htext => tail.textFirst_eq ((reads_of_readEvent ne_nil read).stops htext), ih⟩

/-! ## Reading what was written -/

lemma begins_flatMap_markup {events : List Event} (hfirst : textFirst events = false) :
    StartsIn (· = '<') (events.flatMap Event.markup) := by
  cases events with
  | nil => exact fun c hc => by cases hc
  | cons event events =>
    intro c hc
    rw [List.flatMap_cons, List.head?_append, Event.head?_markup hfirst] at hc
    exact (Option.some.inj hc).symm

section

variable {total steps : Nat} {names : List (List Char)} {event : Event} {events : List Event}

/-- A text that is read to its end has a first event, and the rest is read to its end. -/
lemma readFrom_finished {text : List Char} {place : Place} (hne : text ≠ [])
    (hend : (readFrom total (steps + 1) names text).ending = .finished place) :
    ∃ (event : Event) (rest : List Char) (names' : List (List Char)),
      readEvent text = .ok (event, rest) ∧ trackNames names event = .ok names' ∧
        (readFrom total (steps + 1) names text).events.map PlacedEvent.event =
          event :: (readFrom total steps names' rest).events.map PlacedEvent.event ∧
        (readFrom total steps names' rest).ending = .finished place := by
  have htext : text.isEmpty = false := by simpa using hne
  rw [readFrom, htext] at hend ⊢
  cases hread : readEvent text with
  | error fault =>
    rw [hread] at hend
    cases hend
  | ok reading =>
    obtain ⟨event, rest⟩ := reading
    cases htrack : trackNames names event with
    | error fault =>
      rw [hread] at hend
      simp only [htrack] at hend
      cases hend
    | ok names' =>
      rw [hread] at hend
      simp only [htrack] at hend ⊢
      exact ⟨event, rest, names', rfl, htrack, rfl, hend⟩

/-- Reading the spellings of events reads the first of them, unless it is refused. -/
lemma readFrom_markup_cons (hreadable : ∀ other ∈ event :: events, other.Readable)
    (hsealed : event.Sealed) (hseparated : Separated (event :: events))
    (hdoctype : event ≠ .doctype []) :
    readFrom total (steps + 1) names ((event :: events).flatMap Event.markup) =
      match trackNames names event.reread with
      | .error fault =>
        ⟨[], .failed fault ⟨total, (event :: events).flatMap Event.markup⟩⟩
      | .ok names =>
        let transcript := readFrom total steps names (events.flatMap Event.markup)
        { transcript with
          events := ⟨⟨total, (event :: events).flatMap Event.markup⟩, event.reread⟩ ::
            transcript.events } := by
  have hne : (event.markup ++ events.flatMap Event.markup).isEmpty = false := by
    have hmarkup := Event.markup_ne_nil (hreadable event List.mem_cons_self)
    simp [hmarkup]
  have hread := readEvent_markup (hreadable event List.mem_cons_self) hsealed hdoctype
    fun htext => begins_flatMap_markup (hseparated.1 htext)
  rw [List.flatMap_cons, readFrom, hne, hread]
  rfl

/-- If the reader comes to the end of spelled events, it has read them. -/
theorem events_of_readFrom_markup {place : Place} (hsteps : events.length ≤ steps)
    (hreadable : ∀ event ∈ events, event.Readable) (hsealed : ∀ event ∈ events, event.Sealed)
    (hseparated : Separated events)
    (hend : (readFrom total steps names (events.flatMap Event.markup)).ending = .finished place) :
    .doctype [] ∉ events ∧
      (readFrom total steps names (events.flatMap Event.markup)).events.map PlacedEvent.event =
        events.map Event.reread := by
  induction events generalizing steps names with
  | nil => cases steps <;> exact ⟨List.not_mem_nil, rfl⟩
  | cons event events ih =>
    obtain ⟨steps, rfl⟩ : ∃ n, steps = n + 1 := ⟨steps - 1, by simp at hsteps; omega⟩
    have hdoctype : event ≠ .doctype [] := by
      rintro rfl
      have hne : ((Event.doctype []).markup ++ events.flatMap Event.markup).isEmpty = false := rfl
      rw [List.flatMap_cons, readFrom, hne, readEvent_doctype_nil] at hend
      cases hend
    rw [readFrom_markup_cons hreadable (hsealed event List.mem_cons_self) hseparated hdoctype]
      at hend ⊢
    split at hend
    · cases hend
    next names' htrack =>
      obtain ⟨hnot, hevents⟩ := ih (Nat.le_of_succ_le_succ hsteps)
        (fun other hother => hreadable other (List.mem_cons_of_mem _ hother))
        (fun other hother => hsealed other (List.mem_cons_of_mem _ hother)) hseparated.2 hend
      refine ⟨fun hmem => ?_, ?_⟩
      · rcases List.mem_cons.1 hmem with heq | hmem
        · exact hdoctype heq.symm
        · exact hnot hmem
      · rw [List.map_cons, List.map_cons, hevents]

/-- The reader comes to the end of spelled events if none of them looks like another one and end
tags fit. -/
theorem readFrom_markup_finished {names' : List (List Char)} (hsteps : events.length ≤ steps)
    (hreadable : ∀ event ∈ events, event.Readable) (hsealed : ∀ event ∈ events, event.Sealed)
    (hproper : ∀ event ∈ events, event.Proper) (hseparated : Separated events)
    (htrack : events.foldlM trackNames names = .ok names') :
    ∃ place, (readFrom total steps names (events.flatMap Event.markup)).ending =
      .finished place := by
  induction events generalizing steps names with
  | nil => cases steps <;> exact ⟨_, rfl⟩
  | cons event events ih =>
    obtain ⟨steps, rfl⟩ : ∃ n, steps = n + 1 := ⟨steps - 1, by simp at hsteps; omega⟩
    have hevent : event.Proper := hproper event List.mem_cons_self
    have hdoctype : event ≠ .doctype [] := by
      rintro rfl
      exact hevent rfl
    rw [List.foldlM_cons] at htrack
    obtain ⟨names₁, hfirst, hrest⟩ : ∃ names₁, trackNames names event = .ok names₁ ∧
        events.foldlM trackNames names₁ = .ok names' := by
      cases hfirst : trackNames names event with
      | error fault =>
        rw [hfirst] at htrack
        cases htrack
      | ok names₁ =>
        rw [hfirst] at htrack
        exact ⟨names₁, rfl, htrack⟩
    obtain ⟨place, hplace⟩ := ih (Nat.le_of_succ_le_succ hsteps)
      (fun other hother => hreadable other (List.mem_cons_of_mem _ hother))
      (fun other hother => hsealed other (List.mem_cons_of_mem _ hother))
      (fun other hother => hproper other (List.mem_cons_of_mem _ hother)) hseparated.2 hrest
    rw [readFrom_markup_cons hreadable (hsealed event List.mem_cons_self) hseparated hdoctype,
      Event.reread_eq_self (hreadable event List.mem_cons_self) hevent, hfirst]
    exact ⟨place, hplace⟩

end

end WordFields.Markup
