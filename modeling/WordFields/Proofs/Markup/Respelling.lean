import WordFields.Proofs.Markup.Attribute
import WordFields.Proofs.Markup.Transcript
import WordFields.Proofs.Text.Blank

/-!
# Events in the spelling for writing

The same can be spelled in many ways, of which one is used for writing: `Event.Respells` says how an
event that has been read is written, and `Respelled` says it for events in a row, where a start tag
with its end tag right behind it is written as one tag.

Written events need not be sealed, since a quote in a name or a key is written as it is, and the
value that it was paired up with may be written with another quote.  There are two ways to see that
events are sealed, both from equal texts:

* Events that are written as the text they have been read from are sealed (`Respelled.isSealed`).
* Events are sealed if what is read from their markup is spelled for writing
  (`Event.Written.isSealed_of_readEvent`).

In `Drafted` events quotes may be left open in an end tag, too.  The reader does not get past such a
tag (`Drafted.written`).
-/

namespace WordFields.Markup

open Text Builder

/-! ## Written events -/

/-- What holds of an event in the spelling for writing. -/
structure Event.Written (event : Event) : Prop where
  readable : event.Readable
  tag : ∀ tag ∈ event.tag?, ∃ opening : Opening, opening.Keyed ∧ tag = opening.tag

lemma Event.Written.of_tag? {event : Event} (hreadable : event.Readable)
    (h : event.tag? = none) : event.Written := by
  refine ⟨hreadable, fun tag htag => ?_⟩
  rw [h] at htag
  cases htag

/-- An event and the way in which it is written. -/
inductive Event.Respells : Event → Event → Prop
  | opening {place : Place} {tag : Tag} {attributes : List (List Char × String)}
      (read : readAttributes place tag = .ok attributes) :
    Respells (.opening tag) (.opening (Opening.tag ⟨tag.name, attributes⟩))
  | selfClosing {place : Place} {tag : Tag} {attributes : List (List Char × String)}
      (read : readAttributes place tag = .ok attributes) :
    Respells (.selfClosing tag) (.selfClosing (Opening.tag ⟨tag.name, attributes⟩))
  | text {raw value : List Char} (resolved : resolve raw = .ok value) :
    Respells (.text raw) (.text (escapeText value))
  | doctype (content : List Char) : Respells (.doctype content) (.doctype (trim content))
  | other {event : Event} (tag?_eq : event.tag? = none) : Respells event event

/-- Events that have been read and the events that are written for them. -/
inductive Respelled : List Event → List Event → Prop
  | nil : Respelled [] []
  | cons {raw event : Event} {raws events : List Event} (head : raw.Respells event)
      (tail : Respelled raws events) : Respelled (raw :: raws) (event :: events)
  | merge {place : Place} {tag : Tag} {attributes : List (List Char × String)}
      {raws events : List Event} (read : readAttributes place tag = .ok attributes)
      (tail : Respelled raws (.closing tag.name :: events)) :
    Respelled (.opening tag :: raws)
      (.selfClosing (Opening.tag ⟨tag.name, attributes⟩) :: events)

/-! ## What is kept -/

/-- A tag is still one when its attributes are written in another way. -/
lemma IsTag.respelled {place : Place} {tag : Tag} {attributes : List (List Char × String)}
    (h : IsTag tag) (hread : readAttributes place tag = .ok attributes) :
    IsTag (Opening.tag ⟨tag.name, attributes⟩) where
  not_space := h.not_space
  begins := h.begins
  begins_rest := Opening.begins_rest ⟨tag.name, attributes⟩
  fits := h.fits
  closes hspaces := by
    cases attributes with
    | nil => exact h.closes (isSpace_of_readAttributes_nil hread)
    | cons a attributes =>
      have hmem : '=' ∈ (Opening.tag ⟨tag.name, a :: attributes⟩).rest := by
        simp [Opening.tag, spellAttribute]
      exact absurd (hspaces _ hmem) (by decide)

lemma written_tag {place : Place} {tag : Tag} {attributes : List (List Char × String)}
    (hread : readAttributes place tag = .ok attributes) :
    ∃ opening : Opening, opening.Keyed ∧
      Opening.tag ⟨tag.name, attributes⟩ = opening.tag :=
  ⟨⟨tag.name, attributes⟩, Opening.keyed_of_readAttributes hread tag.name, rfl⟩

lemma isBlank_of_isSpace {c : Char} (h : isSpace c = true) : isBlank c = true := by
  simp only [isSpace, Bool.or_eq_true, decide_eq_true_eq] at h
  rcases h with ((rfl | rfl) | rfl) | rfl <;> decide

lemma readable_doctype_trim {content : List Char} (h : Balances content) :
    (Event.doctype (trim content)).Readable := by
  have hblank : ∀ text : List Char, allBlank text = true → ∀ c ∈ text, c ≠ '<' ∧ c ≠ '>' := by
    intro text htext c hc
    have hcblank : isBlank c = true := List.all_eq_true.1 htext c hc
    constructor <;>
      · rintro rfl
        exact absurd hcblank (by decide)
  obtain ⟨front, back, hcontent, hfront, hback⟩ := exists_append_trim content
  refine ⟨?_, fun c hc => ?_⟩
  · rw [hcontent, balances_append_iff (hblank front hfront) (hblank back hback)] at h
    exact h
  · have hnot := startsIn_trim content c hc
    exact Bool.eq_false_iff.2 fun hspace => Bool.eq_false_iff.1 hnot (isBlank_of_isSpace hspace)

namespace Event.Respells

variable {raw event : Event}

lemma written (h : raw.Respells event) (hraw : raw.Readable) : event.Written := by
  cases h with
  | opening read =>
    refine ⟨IsTag.respelled hraw read, ?_⟩
    rintro tag ⟨⟩
    exact written_tag read
  | selfClosing read =>
    refine ⟨IsTag.respelled hraw read, ?_⟩
    rintro tag ⟨⟩
    exact written_tag read
  | @text raw value resolved =>
    have hvalue : value ≠ [] := ne_nil_of_resolve resolved hraw.1
    exact .of_tag? ⟨escapeText_ne_nil hvalue, lt_not_mem_escapeText value⟩ rfl
  | doctype content => exact .of_tag? (readable_doctype_trim hraw.1) rfl
  | other tag?_eq => exact .of_tag? hraw tag?_eq

lemma isText_eq (h : raw.Respells event) : event.isText = raw.isText := by
  cases h <;> rfl

end Event.Respells

namespace Respelled

variable {raws events : List Event}

lemma written (h : Respelled raws events) (hraws : ∀ raw ∈ raws, raw.Readable) :
    ∀ event ∈ events, event.Written := by
  induction h with
  | nil => exact fun event hevent => absurd hevent List.not_mem_nil
  | cons head _ ih =>
    obtain ⟨hhead, htail⟩ := List.forall_mem_cons.1 hraws
    exact List.forall_mem_cons.2 ⟨head.written hhead, ih htail⟩
  | merge read _ ih =>
    obtain ⟨hhead, htail⟩ := List.forall_mem_cons.1 hraws
    refine List.forall_mem_cons.2 ⟨⟨IsTag.respelled hhead read, ?_⟩,
      (List.forall_mem_cons.1 (ih htail)).2⟩
    rintro tag ⟨⟩
    exact written_tag read

lemma textFirst_eq (h : Respelled raws events) : textFirst events = textFirst raws := by
  cases h with
  | nil => rfl
  | cons head _ => exact head.isText_eq
  | merge => rfl

lemma separated (h : Respelled raws events) (hraws : Separated raws) : Separated events := by
  induction h with
  | nil => trivial
  | cons head tail ih =>
    refine ⟨fun htext => ?_, ih hraws.2⟩
    rw [tail.textFirst_eq]
    exact hraws.1 (head.isText_eq ▸ htext)
  | merge _ _ ih => exact ⟨fun htext => (by cases htext), (ih hraws.2).2⟩

end Respelled

/-! ## Events that are written as they have been read -/

/-- A tag that is written as it has been read, up to some point, is so altogether. -/
lemma tag_eq_of_append {place : Place} {tag : Tag} {attributes : List (List Char × String)}
    (hread : readAttributes place tag = .ok attributes) {behind behind' : List Char}
    (h : (Opening.tag ⟨tag.name, attributes⟩).content ++ behind = tag.content ++ behind')
    (hbehind : StartsIn (isSpace · = false) behind) :
    Opening.tag ⟨tag.name, attributes⟩ = tag ∧ behind = behind' := by
  have hrest : (Opening.tag ⟨tag.name, attributes⟩).rest ++ behind = tag.rest ++ behind' := by
    rw [Tag.content, Tag.content, List.append_assoc, List.append_assoc] at h
    exact List.append_cancel_left h
  have heq : Opening.tag ⟨tag.name, attributes⟩ = tag := by
    cases tag
    exact congrArg _ (rest_eq_of_readAttributes hread hrest.symm hbehind).symm
  rw [heq] at hrest
  exact ⟨heq, List.append_cancel_left hrest⟩

lemma Event.Respells.isSealed {raw event : Event} {behind rest : List Char}
    (h : raw.Respells event) (hreads : Reads (event.markup ++ behind) raw rest) :
    event.Sealed := by
  cases h with
  | opening read =>
    obtain ⟨htext, hsealed⟩ := hreads.tag (by simp [tag?])
    simp only [markup, List.cons_append, List.append_assoc, List.cons.injEq, true_and] at htext
    rwa [(tag_eq_of_append read htext (startsIn_cons.2 rfl)).1]
  | selfClosing read =>
    obtain ⟨htext, hsealed⟩ := hreads.tag (by simp [tag?])
    simp only [markup, List.cons_append, List.append_assoc, List.cons.injEq, true_and] at htext
    rwa [(tag_eq_of_append read htext (startsIn_cons.2 rfl)).1]
  | other tag?_eq => exact sealed_of_tag? tag?_eq
  | _ => exact sealed_of_tag? rfl

/-- Events that are written as the text they have been read from are sealed, since their tags are
spelled as they have been read. -/
theorem Respelled.isSealed {raws events : List Event} {text : List Char}
    (h : Respelled raws events) (htranscribed : Transcribed text raws)
    (htext : events.flatMap Event.markup = text) : ∀ event ∈ events, event.Sealed := by
  induction h generalizing text with
  | nil => exact fun event hevent => absurd hevent List.not_mem_nil
  | @cons raw event raws events head tail ih =>
    have hwritten := (Respelled.cons head tail).written htranscribed.readable
    have hseparated := (Respelled.cons head tail).separated htranscribed.separated
    have hreadable : ∀ other ∈ event :: events, other.Readable := fun other hother =>
      (hwritten other hother).readable
    cases htranscribed with
    | @cons _ rest _ _ ne_nil read transcribed =>
      rw [List.flatMap_cons] at htext
      subst htext
      have hsealed := head.isSealed (reads_of_readEvent ne_nil read)
      obtain ⟨-, hrest⟩ := eq_of_readEvent_markup (hreadable event List.mem_cons_self) hsealed
        (fun hyes => begins_flatMap_markup (hseparated.1 hyes)) read
      exact List.forall_mem_cons.2 ⟨hsealed, ih transcribed hrest.symm⟩
  | @merge place tag attributes raws events hread tail ih =>
    cases htranscribed with
    | cons ne_nil read transcribed =>
      -- the tag has been read up to its bracket, so it is not written with a slash
      obtain ⟨heq, -⟩ := (reads_of_readEvent ne_nil read).tag (by simp [Event.tag?])
      rw [List.flatMap_cons] at htext
      rw [← htext] at heq
      simp only [Event.markup, List.cons_append, List.append_assoc, List.cons.injEq, true_and]
        at heq
      have hslash := (tag_eq_of_append hread heq (startsIn_cons.2 rfl)).2
      exact absurd (List.cons.inj hslash).1 (by decide)

/-! ## Events that are read as they are spelled -/

lemma IsTagEnd.not_space {ending : List Char} (h : IsTagEnd ending) :
    ∀ c ∈ ending, isSpace c = false := by
  rcases h with rfl | rfl <;> simp [isSpace]

lemma IsTagEnd.begins {ending : List Char} (h : IsTagEnd ending) (behind : List Char) :
    StartsIn (isSpace · = false) (ending ++ behind) := by
  rcases h with rfl | rfl <;> exact startsIn_cons.2 rfl

/-- A tag that is written like a sealed one, up to the ends of both, is sealed: the two are equal,
unless one of them has no attributes. -/
lemma closes_content_of_append {opening opening' : Opening} {ending ending' : List Char}
    {behind behind' : List Char} (hkeyed : opening.Keyed) (hkeyed' : opening'.Keyed)
    (htag : IsTag opening.tag) (htag' : IsTag opening'.tag) (hending : IsTagEnd ending)
    (hending' : IsTagEnd ending') (hcloses : Closes opening'.tag.content)
    (h : opening.tag.content ++ (ending ++ behind) =
      opening'.tag.content ++ (ending' ++ behind')) : Closes opening.tag.content := by
  obtain ⟨name, attributes⟩ := opening
  obtain ⟨name', attributes'⟩ := opening'
  have hspace : ∀ {tag : Tag}, IsTag tag → ' ' ∉ tag.name := fun htag hmem =>
    absurd (htag.not_space _ hmem) (by decide)
  cases attributes with
  | nil =>
    have hcontent : (Opening.tag ⟨name, []⟩).content = name := List.append_nil name
    rw [hcontent]
    exact htag.closes fun c hc => absurd hc List.not_mem_nil
  | cons a attributes =>
    cases attributes' with
    | nil =>
      have hcontent : (Opening.tag ⟨name', []⟩).content = name' := List.append_nil name'
      rw [hcontent] at h hcloses
      have hword : ∀ c ∈ name' ++ ending', (!isSpace c) = true := by
        intro c hc
        rcases List.mem_append.1 hc with hc | hc
        · simpa using htag'.not_space c hc
        · simpa using hending'.not_space c hc
      -- the whole tag is in the name of the other one, which would have ended there
      obtain ⟨extra, hextra⟩ : ∃ extra, name = name' ++ (ending' ++ extra) := by
        refine ⟨behind'.takeWhile fun c => !isSpace c, ?_⟩
        have htake := congrArg (List.takeWhile fun c => !isSpace c) h
        rw [← List.append_assoc name', List.takeWhile_append_of_pos hword] at htake
        rw [← List.append_assoc, ← htake, Tag.content, List.append_assoc,
          List.takeWhile_append_of_pos fun c hc => by simpa using htag.not_space c hc]
        exact (List.append_nil name).symm
      refine absurd ?_ htag.fits
      rw [show (Opening.tag ⟨name, a :: attributes⟩).name = name from rfl, hextra,
        List.foldlM_append, hcloses]
      rcases hending' with rfl | rfl <;> rfl
    | cons a' attributes' =>
      have hcontent : ∀ (name : List Char) (a : List Char × String)
          (attributes : List (List Char × String)) (behind : List Char),
          (Opening.tag ⟨name, a :: attributes⟩).content ++ behind =
            name ++ ' ' :: (((a :: attributes).flatMap spellAttribute).tail ++ behind) := by
        intro name a attributes behind
        rw [Tag.content, List.append_assoc]
        rfl
      rw [hcontent, hcontent] at h
      obtain ⟨rfl, hbehind⟩ := append_cons_inj (hspace htag) (hspace htag') h
      have hspelled := congrArg (' ' :: ·) hbehind
      have hattributes : a :: attributes = a' :: attributes' :=
        flatMap_spellAttribute_inj hkeyed.isKey hkeyed'.isKey (hending.begins behind)
          (hending'.begins behind') hspelled
      rwa [hattributes]

/-- An event from whose spelling an event in the spelling for writing is read is sealed. -/
lemma Event.Written.isSealed_of_readEvent {event event' : Event} {behind rest : List Char}
    (h : event.Written) (h' : event'.Written)
    (hread : readEvent (event.markup ++ behind) = .ok (event', rest)) : event.Sealed := by
  intro tag htag
  obtain ⟨opening, hkeyed, rfl⟩ := h.tag tag htag
  obtain ⟨ending, hending, hmarkup⟩ := Event.markup_of_tag? htag
  have hisTag : IsTag opening.tag := h.readable.isTag htag
  cases hcontent : opening.tag.content with
  | nil => exact rfl
  | cons c content =>
    have hc : BeginsTag c := hisTag.begins_content c (by rw [hcontent]; rfl)
    -- behind a `<` with such a character a tag is read
    obtain ⟨tag', htag'⟩ : ∃ tag', event'.tag? = some tag' := by
      have htext : event.markup ++ behind = '<' :: c :: (content ++ (ending ++ behind)) := by
        rw [hmarkup, hcontent]
        simp
      rw [htext, readEvent_tag (startsIn_cons.2 hc)] at hread
      split at hread
      next content' _ _ =>
        cases hread
        rcases startTag_cases content' with heq | ⟨front, -, heq⟩
        · exact ⟨_, congrArg Event.tag? heq⟩
        · exact ⟨_, congrArg Event.tag? heq⟩
      next => cases hread
    obtain ⟨opening', hkeyed', rfl⟩ := h'.tag tag' htag'
    obtain ⟨ending', hending', hmarkup'⟩ := Event.markup_of_tag? htag'
    have hne : event.markup ++ behind ≠ [] := by
      simp [hmarkup]
    obtain ⟨htext, hsealed'⟩ := (reads_of_readEvent hne hread).tag (by simp [htag'])
    rw [hmarkup, hmarkup', List.cons_append, List.cons_append, List.append_assoc,
      List.append_assoc] at htext
    rw [← hcontent]
    exact closes_content_of_append hkeyed hkeyed' hisTag (h'.readable.isTag htag') hending
      hending' (hsealed' _ htag') (List.cons.inj htext).2

/-! ## Drafts -/

/-- Events in the spelling for writing and, right behind the text of their elements, end tags in
which quotes need not pair up. -/
inductive Drafted : List Event → Prop
  | nil : Drafted []
  | cons {event : Event} {events : List Event} (head : event.Written) (tail : Drafted events) :
    Drafted (event :: events)
  | around {tag : Tag} {raw : List Char} {events : List Event}
      (opening : (Event.opening tag).Written) (proper : (Event.opening tag).Proper)
      (text : (Event.text raw).Written) (tail : Drafted events) :
    Drafted (.opening tag :: .text raw :: .closing tag.name :: events)

/-- Whether events are sealed, or what is read from their markup is spelled for writing. -/
def Recognized (total steps : Nat) (names : List (List Char)) (events : List Event) : Prop :=
  (∀ event ∈ events, event.Sealed) ∨
    ∀ event ∈ (readFrom total steps names (events.flatMap Event.markup)).events.map
      PlacedEvent.event, event.Written

section

variable {total steps : Nat} {names : List (List Char)} {place : Place}

/-- Reading a written event where the events are read to their end. -/
lemma Event.Written.read_of_finished {event : Event} {events : List Event} (h : event.Written)
    (hbegins : event.isText = true → StartsIn (· = '<') (events.flatMap Event.markup))
    (hend : (readFrom total (steps + 1) names ((event :: events).flatMap Event.markup)).ending =
      .finished place)
    (hrecognized : Recognized total (steps + 1) names (event :: events)) :
    event.Sealed ∧ ∃ names', trackNames names event.reread = .ok names' ∧
      (readFrom total steps names' (events.flatMap Event.markup)).ending = .finished place ∧
      Recognized total steps names' events := by
  have hne : (event :: events).flatMap Event.markup ≠ [] := by
    simp [Event.markup_ne_nil h.readable]
  obtain ⟨raw, rest, names', hread, htrack, hevents, hrest⟩ := readFrom_finished hne hend
  rw [Recognized, hevents, List.forall_mem_cons, List.forall_mem_cons] at hrecognized
  have hsealed : event.Sealed :=
    hrecognized.elim And.left fun hraws => h.isSealed_of_readEvent hraws.1 hread
  obtain ⟨rfl, rfl⟩ := eq_of_readEvent_markup h.readable hsealed hbegins hread
  exact ⟨hsealed, names', htrack, hrest, hrecognized.imp And.right And.right⟩

/-- Quotes pair up in an end tag of the innermost element, if the reader gets past it. -/
lemma closes_of_finished {name : List Char} {others : List (List Char)} {events : List Event}
    (hend : (readFrom total (steps + 1) (name :: others)
      ((.closing name :: events).flatMap Event.markup)).ending = .finished place) :
    Closes name := by
  have hmarkup : (.closing name :: events).flatMap Event.markup =
      '<' :: '/' :: (name ++ '>' :: events.flatMap Event.markup) := by
    simp [Event.markup]
  rw [hmarkup] at hend
  obtain ⟨raw, rest, names', hread, htrack, -⟩ := readFrom_finished (List.cons_ne_nil _ _) hend
  rw [readEvent] at hread
  split at hread
  next content rest' hcut =>
    cases hread
    have hname : name = endTagName content := by
      by_contra hne
      simp only [trackNames, if_neg hne] at htrack
      cases htrack
    rw [hname]
    exact closes_endTagName (cutTag?_eq_some_iff.1 hcut).2
  next => cases hread

end

namespace Drafted

variable {events events' : List Event}

lemma of_written (h : ∀ event ∈ events, event.Written) : Drafted events := by
  induction events with
  | nil => exact .nil
  | cons event events ih =>
    obtain ⟨hhead, htail⟩ := List.forall_mem_cons.1 h
    exact .cons hhead (ih htail)

lemma append (h : Drafted events) (h' : Drafted events') : Drafted (events ++ events') := by
  induction h with
  | nil => exact h'
  | cons head _ ih => exact .cons head ih
  | around opening proper text _ ih => exact .around opening proper text ih

lemma markup_ne_nil (h : Drafted events) : ∀ event ∈ events, event.markup ≠ [] := by
  induction h with
  | nil => exact fun event hevent => absurd hevent List.not_mem_nil
  | cons head _ ih => exact List.forall_mem_cons.2 ⟨Event.markup_ne_nil head.readable, ih⟩
  | around opening _ text _ ih =>
    simp only [List.forall_mem_cons]
    exact ⟨Event.markup_ne_nil opening.readable, Event.markup_ne_nil text.readable,
      List.cons_ne_nil _ _, ih⟩

/-- Drafted events that are read to their end can all be read, if they are recognized, and then they
are sealed. -/
theorem written {total steps : Nat} {names : List (List Char)} {place : Place}
    (h : Drafted events) (hsteps : events.length ≤ steps) (hseparated : Separated events)
    (hend : (readFrom total steps names (events.flatMap Event.markup)).ending = .finished place)
    (hrecognized : Recognized total steps names events) :
    ∀ event ∈ events, event.Written ∧ event.Sealed := by
  induction h generalizing steps names with
  | nil => exact fun event hevent => absurd hevent List.not_mem_nil
  | cons head tail ih =>
    obtain ⟨steps, rfl⟩ : ∃ n, steps = n + 1 := ⟨steps - 1, by simp at hsteps; omega⟩
    obtain ⟨hsealed, names', -, hend, hrecognized⟩ := head.read_of_finished
      (fun htext => begins_flatMap_markup (hseparated.1 htext)) hend hrecognized
    exact List.forall_mem_cons.2 ⟨⟨head, hsealed⟩,
      ih (Nat.le_of_succ_le_succ hsteps) hseparated.2 hend hrecognized⟩
  | @around tag raw events opening proper text tail ih =>
    obtain ⟨steps, rfl⟩ : ∃ n, steps = n + 1 + 1 + 1 := ⟨steps - 3, by simp at hsteps; omega⟩
    have hlength : events.length ≤ steps := by simp at hsteps; omega
    -- the start tag is read as it is, so the end tag has to be that of the innermost element
    obtain ⟨hopening, names', htrack, hend, hrecognized⟩ :=
      opening.read_of_finished (fun htext => by cases htext) hend hrecognized
    rw [Event.reread_eq_self opening.readable proper] at htrack
    cases htrack
    obtain ⟨htext, names', htrack, hend, hrecognized⟩ :=
      text.read_of_finished (fun _ => begins_flatMap_markup rfl) hend hrecognized
    cases htrack
    have hname : endTagName tag.name = tag.name := endTagName_eq_self opening.readable.not_space
    have closing : (Event.closing tag.name).Written := .of_tag? ⟨closes_of_finished hend, hname⟩ rfl
    obtain ⟨hclosing, names', -, hend, hrecognized⟩ :=
      closing.read_of_finished (fun htext => by cases htext) hend hrecognized
    simp only [List.forall_mem_cons]
    exact ⟨⟨opening, hopening⟩, ⟨text, htext⟩, ⟨closing, hclosing⟩,
      ih hlength hseparated.2.2.2 hend hrecognized⟩

end Drafted

end WordFields.Markup
