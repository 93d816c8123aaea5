import Mathlib.Algebra.Ring.Int.Defs
import WordFields.Proofs.Markup.Building

/-!
# Written documents are read again

A document that has been read is written so that reading it again gives the same document, as long
as quotes pair up in every tag (`Document.SealedAt`) and no markup can be taken for something else
(`Document.ProperAt`).  Both conditions are necessary.  Where a tag ends too early or too late, what
is read is written in another way, if it can be read at all.  Where an element is written as a tag
of another kind, there is an end tag too many, and where a document type has no name, it is refused.

Documents with ordinary names meet both conditions.
-/

namespace WordFields

namespace Markup

open Text

/-! ## Start and end tags balance -/

/-- How many more elements are open after an event. -/
def Event.balance : Event → Int
  | .opening _ => 1
  | .closing _ => -1
  | _ => 0

lemma length_of_foldlM_trackNames {events : List Event} {names names' : List (List Char)}
    (h : events.foldlM trackNames names = .ok names') :
    (names'.length : Int) = names.length + (events.map Event.balance).sum := by
  induction events generalizing names with
  | nil =>
    cases h
    simp
  | cons event events ih =>
    rw [List.foldlM_cons] at h
    cases hfirst : trackNames names event with
    | error fault =>
      rw [hfirst] at h
      cases h
    | ok names₁ =>
      rw [hfirst] at h
      have hlength : (names₁.length : Int) = names.length + event.balance := by
        cases event with
        | opening tag =>
          cases hfirst
          simp [Event.balance]
        | closing name =>
          unfold trackNames at hfirst
          cases names with
          | nil => cases hfirst
          | cons innermost others =>
            simp only at hfirst
            split at hfirst
            · cases hfirst
              simp [Event.balance]
            · cases hfirst
        | _ =>
          cases hfirst
          simp [Event.balance]
      rw [ih h, hlength, List.map_cons, List.sum_cons]
      omega

/-- An event that is read as another one counts for less then. -/
lemma Event.balance_reread {event : Event} (hdoctype : event ≠ .doctype []) :
    event.reread.balance ≤ event.balance ∧
      (event.reread.balance = event.balance → event.Proper) := by
  cases event with
  | opening tag =>
    by_cases hlast : tag.content.getLast? = some '/'
    · obtain ⟨front, hfront⟩ := List.getLast?_eq_some_iff.1 hlast
      rw [reread, hfront, startTag_append_slash]
      simp [balance]
    · rw [reread, startTag_of_getLast? hlast]
      exact ⟨le_refl _, fun _ => hlast⟩
  | selfClosing tag =>
    rw [reread]
    split
    next => simp [balance]
    next hcontent => exact ⟨le_refl _, fun _ => hcontent⟩
  | doctype content => exact ⟨le_refl _, fun _ hnil => hdoctype (hnil ▸ rfl)⟩
  | _ => exact ⟨le_refl _, fun _ => trivial⟩

/-- Events that balance as they are and as they are read are read as they are. -/
lemma proper_of_balance {events : List Event} (hdoctype : .doctype [] ∉ events)
    (h : (events.map Event.balance).sum ≤ ((events.map Event.reread).map Event.balance).sum) :
    ∀ event ∈ events, event.Proper := by
  suffices hboth : ((events.map Event.reread).map Event.balance).sum ≤
      (events.map Event.balance).sum ∧
        (((events.map Event.reread).map Event.balance).sum = (events.map Event.balance).sum →
          ∀ event ∈ events, event.Proper) from hboth.2 (le_antisymm hboth.1 h)
  clear h
  induction events with
  | nil => exact ⟨le_refl _, fun _ event hevent => absurd hevent List.not_mem_nil⟩
  | cons event events ih =>
    obtain ⟨hevent, hrest⟩ := not_or.1 (mt List.mem_cons.2 hdoctype)
    obtain ⟨hle, himp⟩ := ih hrest
    obtain ⟨hle', himp'⟩ := Event.balance_reread (Ne.symm hevent)
    simp only [List.map_cons, List.sum_cons]
    refine ⟨by omega, fun heq => List.forall_mem_cons.2 ⟨himp' (by omega), himp (by omega)⟩⟩

/-! ## Reading what was written -/

lemma dropByteOrderMark_eq {text : List Char} (h : StartsIn (· ≠ '\ufeff') text) :
    dropByteOrderMark text = text := by
  unfold dropByteOrderMark
  split
  next => exact absurd rfl (h _ rfl)
  next => rfl

/-- The text of a document does not begin with a byte order mark: outside of elements only blank
text is accepted. -/
lemma starts_of_runs {events : List Event} {b : Builder} (h : Builder.empty.Runs events b)
    (hmarkup : ∀ event ∈ events, event.markup ≠ []) :
    StartsIn (· ≠ '\ufeff') (events.flatMap Event.markup) := by
  cases h with
  | nil => exact fun c hc => by cases hc
  | @cons _ next _ event events hstep _ =>
    rintro c hc rfl
    rw [List.flatMap_cons, List.head?_append_of_ne_nil _ (hmarkup event List.mem_cons_self)] at hc
    cases event with
    | text raw =>
      obtain ⟨raw, rfl⟩ := List.head?_eq_some_iff.1 hc
      have htext := hstep ⟨0, []⟩
      simp only [Builder.step, Builder.addText] at htext
      split at htext
      · cases htext
      next value hvalue =>
        split at htext
        · cases htext
        next hblank =>
          rw [resolve, resolveFrom_cons (by decide)] at hvalue
          obtain ⟨rest, rfl⟩ := exists_of_map_cons hvalue
          exact hblank rfl
    | _ =>
      have hlt := Option.some.inj hc
      exact absurd hlt (by decide)

/-- Events that are proper are read as they are. -/
lemma map_reread {events : List Event} (hreadable : ∀ event ∈ events, event.Readable)
    (hproper : ∀ event ∈ events, event.Proper) : events.map Event.reread = events :=
  (List.map_congr_left fun event hevent =>
    Event.reread_eq_self (hreadable event hevent) (hproper event hevent)).trans (List.map_id _)

namespace Content

variable {content : Content} {d : Document}

namespace Drafts

lemma length_le (h : content.Drafts d) :
    content.events.length ≤ (content.events.flatMap Event.markup).length + 1 :=
  Nat.le_succ_of_le (length_le_length_flatMap h.drafted.markup_ne_nil)

lemma dropByteOrderMark_eq (h : content.Drafts d) :
    dropByteOrderMark (content.events.flatMap Event.markup) =
      content.events.flatMap Event.markup := by
  obtain ⟨b, hruns, -⟩ := h.runs
  exact Markup.dropByteOrderMark_eq (starts_of_runs hruns h.drafted.markup_ne_nil)

/-- The transcript of the text that the events of a content are written as. -/
lemma ofText_eq (h : content.Drafts d) :
    Transcript.ofText (content.events.flatMap Event.markup) =
      readFrom (byteLength (content.events.flatMap Event.markup))
        ((content.events.flatMap Event.markup).length + 1) []
          (content.events.flatMap Event.markup) := by
  rw [Transcript.ofText, h.dropByteOrderMark_eq]

/-- What is drafted and can be read is written, if quotes pair up in every start tag. -/
theorem builds_of_sealed (h : content.Drafts d)
    (hsealed : ∀ event ∈ content.events, event.Sealed) {d' : Document}
    (hparse : parseChars (content.events.flatMap Event.markup) = .ok d') : content.Builds d := by
  obtain ⟨place, b, hending, -⟩ := build_of_parseChars hparse
  rw [h.ofText_eq] at hending
  have hall := h.drafted.written h.length_le h.separated hending (.inl hsealed)
  exact h.builds fun event hevent => (hall event hevent).1

end Drafts

namespace Builds

lemma readable (h : content.Builds d) : ∀ event ∈ content.events, event.Readable :=
  fun event hevent => (h.written event hevent).readable

lemma foldlM_trackNames (h : content.Builds d) :
    content.events.foldlM trackNames [] = .ok [] := by
  obtain ⟨b, hruns, hopened, -⟩ := h.runs
  have hplaced : (content.events.map fun event => (⟨⟨0, []⟩, event⟩ : PlacedEvent)).map
      PlacedEvent.event = content.events := by
    rw [List.map_map]
    exact List.map_id _
  have htrack := Builder.trackNames_of_run (hruns.run_eq hplaced)
  rw [hplaced, hopened] at htrack
  exact htrack

/-- What has been written is read as the same document. -/
theorem parseChars_eq (h : content.Builds d) (hsealed : ∀ event ∈ content.events, event.Sealed)
    (hproper : ∀ event ∈ content.events, event.Proper) :
    parseChars (content.events.flatMap Event.markup) = .ok d := by
  obtain ⟨b, hruns, hopened, hroot, rfl⟩ := h.runs
  obtain ⟨place, hending⟩ := readFrom_markup_finished h.drafts.length_le h.readable hsealed hproper
    h.separated h.foldlM_trackNames
  obtain ⟨-, hevents⟩ :=
    events_of_readFrom_markup h.drafts.length_le h.readable hsealed h.separated hending
  have hself := map_reread h.readable hproper
  rw [parseChars, Transcript.build, h.drafts.ofText_eq, hruns.run_eq (hevents.trans hself)]
  simp only [Builder.finish, hending, hopened, hroot, if_true]

/-- What can be read again does not look like something else. -/
theorem proper_of_parseChars (h : content.Builds d)
    (hsealed : ∀ event ∈ content.events, event.Sealed) {d' : Document}
    (hparse : parseChars (content.events.flatMap Event.markup) = .ok d') :
    ∀ event ∈ content.events, event.Proper := by
  obtain ⟨place, b, hending, hrun, hopened, -⟩ := build_of_parseChars hparse
  rw [h.drafts.ofText_eq] at hending hrun
  obtain ⟨hdoctype, hevents⟩ :=
    events_of_readFrom_markup h.drafts.length_le h.readable hsealed h.separated hending
  have htrack := Builder.trackNames_of_run hrun
  rw [hevents, hopened] at htrack
  have hreread := length_of_foldlM_trackNames htrack
  have hown := length_of_foldlM_trackNames h.foldlM_trackNames
  refine proper_of_balance hdoctype ?_
  simp only [Builder.empty, List.map_nil, List.length_nil] at hreread hown
  omega

end Builds

/-- In what can be read again, and is then written as before, quotes pair up in every start tag. -/
theorem Drafts.sealed_of_parseChars (h : content.Drafts d) {d' : Document}
    (hparse : parseChars (content.events.flatMap Event.markup) = .ok d')
    (hwritten : d'.toChars = content.events.flatMap Event.markup) :
    ∀ event ∈ content.events, event.Sealed := by
  obtain ⟨content', h', hsealed'⟩ := exists_content hparse
  have htext : content'.events.flatMap Event.markup = content.events.flatMap Event.markup := by
    rw [← hwritten, Document.toChars_eq h'.displays]
  have hsealed : ∀ event ∈ content'.events, event.Sealed :=
    hsealed' (htext.trans h.dropByteOrderMark_eq.symm)
  rw [← htext] at hparse
  have hproper := h'.proper_of_parseChars hsealed hparse
  obtain ⟨place, b, hending, -⟩ := build_of_parseChars hparse
  rw [h'.drafts.ofText_eq] at hending
  -- what is read is what the document that is read is written as
  obtain ⟨-, hevents⟩ :=
    events_of_readFrom_markup h'.drafts.length_le h'.readable hsealed h'.separated hending
  rw [map_reread h'.readable hproper] at hevents
  rw [htext] at hending hevents
  have hall := h.drafted.written h.length_le h.separated hending (.inr (hevents ▸ h'.written))
  exact fun event hevent => (hall event hevent).2

end Content

end Markup

/-- Whether nothing in the names of an element and its attributes has a meaning in markup. -/
structure Element.IsOrdinary (e : Element) : Prop where
  name_ne_nil : e.name.toChars ≠ []
  name : ∀ c ∈ e.name.toChars, Markup.IsPlain c ∧ c ≠ '/'
  keys : ∀ a ∈ e.attributes, ∀ c ∈ a.name.toChars, Markup.IsPlain c

/-- Whether a node has ordinary names, if it has any. -/
def NodeKind.IsOrdinary : NodeKind → Prop
  | element e => e.IsOrdinary
  | doctype value => value ≠ ""
  | _ => True

namespace Document

open Markup

variable {d : Document}

lemma parse_toMarkup_eq {content : Content} (h : content.Builds d) :
    parse d.toMarkup = parseChars (content.events.flatMap Event.markup) := by
  rw [parse, toMarkup, String.toList_ofList, toChars_eq h.displays]

/-- A document that has been read and whose markup cannot be taken for something else is read again
from its own markup. -/
theorem parse_toMarkup {text : String} (h : parse text = .ok d)
    (hsealed : ∀ id ∈ d.descendants root, d.SealedAt id)
    (hproper : ∀ id ∈ d.descendants root, d.ProperAt id) : parse d.toMarkup = .ok d := by
  obtain ⟨content, hbuilds, -⟩ := exists_content h
  rw [parse_toMarkup_eq hbuilds]
  exact hbuilds.parseChars_eq ((forall_sealedAt_iff hbuilds.displays).1 hsealed)
    ((forall_properAt_iff hbuilds.displays).1 hproper)

/-! ## Ordinary names -/

lemma closes_tagMarkup {e : Element} (h : e.IsOrdinary) : Closes (tagMarkup e) := by
  have hname : Closes e.name.toChars := closes_of_isPlain fun c hc => (h.name c hc).1
  refine hname.append (closes_flatMap fun a ha => ?_)
  have hkey : Closes (' ' :: a.name.toChars ++ ['=']) := by
    refine closes_of_isPlain fun c hc => ?_
    simp only [List.cons_append, List.mem_cons, List.mem_append, List.not_mem_nil, or_false] at hc
    rcases hc with rfl | hc | rfl
    · decide
    · exact h.keys a ha c hc
    · decide
  have hvalue := closes_quoted (not_mem_escapeValue (.inl rfl) a.value.toList)
  simpa [attributeMarkup] using hkey.append hvalue

lemma getLast?_tagMarkup {e : Element} (h : e.IsOrdinary) :
    (tagMarkup e).getLast? ≠ some '/' := by
  intro hlast
  rw [tagMarkup, List.getLast?_append] at hlast
  rcases List.eq_nil_or_concat e.attributes with hnil | ⟨front, a, hfront⟩
  · rw [hnil] at hlast
    exact (h.name '/' (List.mem_of_getLast? (by simpa using hlast))).2 rfl
  · obtain ⟨text, htext⟩ : ∃ text, attributeMarkup a = text ++ ['"'] := ⟨_, rfl⟩
    rw [hfront, List.concat_eq_append, List.flatMap_append, List.flatMap_singleton, htext] at hlast
    simp at hlast

/-- A document with ordinary names is read again from its own markup. -/
theorem parse_toMarkup_of_isOrdinary {text : String} (h : parse text = .ok d)
    (hordinary : ∀ id ∈ d.descendants root, (d.kind id).IsOrdinary) :
    parse d.toMarkup = .ok d := by
  refine parse_toMarkup h (fun id hid => ?_) fun id hid => ?_
  · have hkind := hordinary id hid
    rw [SealedAt]
    cases hcase : d.kind id with
    | element e =>
      rw [hcase] at hkind
      exact closes_tagMarkup hkind
    | _ => trivial
  · have hkind := hordinary id hid
    rw [ProperAt]
    cases hcase : d.kind id with
    | element e =>
      rw [hcase] at hkind
      rw [NodeKind.Proper]
      split
      · exact fun hnil => hkind.name_ne_nil (List.append_eq_nil_iff.1 hnil).1
      · exact getLast?_tagMarkup hkind
    | doctype value =>
      rw [hcase] at hkind
      exact hkind
    | _ => trivial

/-! ## Fixed points -/

/-- The markup of a document that has been read can be read again, and is then written as before,
exactly if quotes pair up in every tag and nothing can be taken for something else. -/
theorem toMarkup_fixed_iff {text : String} (h : parse text = .ok d) :
    (∃ d', parse d.toMarkup = .ok d' ∧ d'.toMarkup = d.toMarkup) ↔
      ∀ id ∈ d.descendants root, d.SealedAt id ∧ d.ProperAt id := by
  obtain ⟨content, hbuilds, -⟩ := exists_content h
  constructor
  · rintro ⟨d', hd', hmarkup⟩
    rw [parse_toMarkup_eq hbuilds] at hd'
    have hwritten : d'.toChars = content.events.flatMap Event.markup := by
      rw [← toChars_eq hbuilds.displays]
      exact String.ofList_injective hmarkup
    have hsealed := hbuilds.drafts.sealed_of_parseChars hd' hwritten
    have hproper := hbuilds.proper_of_parseChars hsealed hd'
    exact fun id hid => ⟨(forall_sealedAt_iff hbuilds.displays).2 hsealed id hid,
      (forall_properAt_iff hbuilds.displays).2 hproper id hid⟩
  · intro hboth
    exact ⟨d, parse_toMarkup h (fun id hid => (hboth id hid).1) fun id hid => (hboth id hid).2, rfl⟩

/-- Single quotes, a reference by number and a start tag with its end tag right behind it are
spelled differently when they are written. -/
theorem toMarkup_fixed_respelled :
    ∃ d, parse "<r><a x='1'></a>&#38;</r>" = .ok d ∧ d.toMarkup = "<r><a x=\"1\"/>&amp;</r>" ∧
      ∃ d', parse d.toMarkup = .ok d' ∧ d'.toMarkup = d.toMarkup := by
  refine ⟨_, rfl, by decide +kernel, ?_⟩
  exact (@toMarkup_fixed_iff _ "<r><a x='1'></a>&#38;</r>" rfl).2 (by decide +kernel)

-- the quotes in the keys pair up with those of the values as they are read, but not as they are
-- written, and the tag then ends at the third key
example :
    ((parse "<r><a k'='v\"' l'=\"w\" >='z\"' m'=\"y\">t</a></r>").bind fun d =>
      (parse d.toMarkup).map fun d' => (d.toMarkup, d'.toMarkup)).toOption =
    some ("<r><a k'=\"v&quot;\" l'=\"w\" >=\"z&quot;\" m'=\"y\">t</a></r>",
      "<r><a k'=\"v&quot;\" l'=\"w\">=\"z\"\" m'=\"y\"&gt;t</a></r>") := by
  decide +kernel

/-- An element without a name, attributes and children is written as an end tag. -/
theorem not_toMarkup_fixed_nameless :
    ¬ ∀ (text : String) (d : Document), parse text = .ok d →
      ∃ d', parse d.toMarkup = .ok d' ∧ d'.toMarkup = d.toMarkup := by
  intro h
  have hfails : ((parse "<r><></></r>").map fun d => (parse d.toMarkup).toOption).toOption =
      some none := by decide +kernel
  cases hparse : parse "<r><></></r>" with
  | error e =>
    rw [hparse] at hfails
    cases hfails
  | ok d =>
    obtain ⟨d', hd', -⟩ := h _ d hparse
    rw [hparse] at hfails
    simp [Except.map, Except.toOption, hd'] at hfails

end Document

end WordFields
