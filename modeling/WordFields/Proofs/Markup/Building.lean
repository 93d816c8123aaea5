import WordFields.Proofs.Markup.Content
import WordFields.Proofs.Markup.Respelling
import WordFields.Proofs.Tree.Numbering

/-!
# Documents are built from content

Whatever the spelling of the events is that the builder accepts, they are the events of a content:
the builder makes the same document from the events that spell the content, and this document has
the trees of the content (`exists_content`).

The statement about a builder in the middle of its work has several contents, one for the innermost
open element and one more for each end tag that is still to come: `Completes` says what these make
of a document.
-/

namespace WordFields

namespace Markup

open Text

/-! ## Contents that complete a document -/

/-- The node of the innermost open element. -/
def innermost : List OpenElement → NodeId
  | [] => Document.root
  | opened :: _ => opened.id

/-- Events that close all open elements, with a content in each of them, and the document that this
makes of another. -/
inductive Completes :
    Document → List OpenElement → List (List Binding) → List Event → Document → Prop
  | last {d : Document} {scopes : List (List Binding)} (content : Content) (fits : content.Fits) :
    Completes d [] scopes content.events (d.addForest Document.root (content.trees scopes))
  | close {d d' : Document} {opened : OpenElement} {others : List OpenElement}
      {scopes : List (List Binding)} {events : List Event} (content : Content) (fits : content.Fits)
      (rest : Completes (d.addForest opened.id (content.trees scopes)) others (scopes.drop 1)
        events d') :
    Completes d (opened :: others) scopes (content.events ++ .closing opened.name :: events) d'

namespace Completes

variable {d d' : Document} {opened : List OpenElement} {scopes : List (List Binding)}
  {events : List Event}

lemma leaf {head : Leaf} (hhead : head.Fits)
    (h : Completes (d.appendNew (innermost opened) head.kind).2 opened scopes events d') :
    Completes d opened scopes (head.event :: events) d' := by
  cases h with
  | last content fits => exact .last (.leaf head content) ⟨hhead, fits⟩
  | close content fits rest => exact .close (.leaf head content) ⟨hhead, fits⟩ rest

lemma selfClosing {opening : Opening} (hkeyed : opening.Keyed)
    (h : Completes (d.appendNew (innermost opened) (.element (opening.element scopes))).2 opened
      scopes events d') :
    Completes d opened scopes (.selfClosing opening.tag :: events) d' := by
  cases h with
  | last content fits => exact .last (.element opening .nil content) ⟨hkeyed, trivial, fits⟩
  | close content fits rest =>
    exact .close (.element opening .nil content) ⟨hkeyed, trivial, fits⟩ rest

/-- An element is closed by the first of the end tags that belong to open elements. -/
lemma element {opening : Opening} (hkeyed : opening.Keyed)
    (h : Completes (d.appendNew (innermost opened) (.element (opening.element scopes))).2
      (⟨d.size, opening.name⟩ :: opened) (opening.bindings :: scopes) events d') :
    ∃ inner rest, events = inner ++ .closing opening.name :: rest ∧
      Completes d opened scopes (opening.events inner ++ rest) d' := by
  cases h with
  | @close _ _ _ _ _ rest content fits hrest =>
    refine ⟨content.events, rest, rfl, ?_⟩
    cases hrest with
    | last content' fits' =>
      exact .last (.element opening content content') ⟨hkeyed, fits, fits'⟩
    | @close _ _ _ _ _ rest' content' fits' hrest' =>
      have hclose :=
        Completes.close (.element opening content content') ⟨hkeyed, fits, fits'⟩ hrest'
      rw [Content.events, List.append_assoc] at hclose
      exact hclose

lemma closing {opened : OpenElement} {others : List OpenElement}
    (h : Completes d others (scopes.drop 1) events d') :
    Completes d (opened :: others) scopes (.closing opened.name :: events) d' :=
  .close .nil trivial h

lemma exists_content (h : Completes d [] scopes events d') :
    ∃ content : Content, events = content.events ∧ content.Fits ∧
      d' = d.addForest Document.root (content.trees scopes) := by
  cases h with
  | last content fits => exact ⟨content, rfl, fits, rfl⟩

end Completes

namespace Builder

variable {b b' : Builder}

/-! ## Steps -/

/-- The builder after the element of a start tag has been added. -/
def addOpening (b : Builder) (opening : Opening) : Builder :=
  { b with
    document := (b.document.appendNew b.currentParent (.element (opening.element b.scopes))).2
    hasRoot := true }

/-- The builder inside the element of a start tag. -/
def enter (b : Builder) (opening : Opening) : Builder :=
  { b.addOpening opening with
    openElements := ⟨b.document.size, opening.name⟩ :: b.openElements
    scopes := opening.bindings :: b.scopes }

/-- Events that lead from one builder to another, wherever they are placed. -/
inductive Runs : Builder → List Event → Builder → Prop
  | nil (b : Builder) : Runs b [] b
  | cons {b next b' : Builder} {event : Event} {events : List Event}
      (step : ∀ place, b.step ⟨place, event⟩ = .ok next) (rest : Runs next events b') :
    Runs b (event :: events) b'

lemma Runs.run_eq {events : List Event} (h : Runs b events b') {placed : List PlacedEvent}
    (hplaced : placed.map PlacedEvent.event = events) : b.run placed = .ok b' := by
  induction h generalizing placed with
  | nil b =>
    obtain rfl := List.map_eq_nil_iff.1 hplaced
    rfl
  | cons step rest ih =>
    obtain ⟨⟨place, event⟩, placed, rfl, rfl, hrest⟩ := List.map_eq_cons_iff.1 hplaced
    rw [run, step place]
    exact ih hrest

lemma addElement_eq_ok {place : Place} {tag : Tag} {added : NodeId × List Binding × Builder}
    (h : b.addElement place tag = .ok added) :
    ∃ attributes, readAttributes place tag = .ok attributes ∧
      (b.openElements.isEmpty && b.hasRoot) = false ∧
        added = (b.document.size, Opening.bindings ⟨tag.name, attributes⟩,
          b.addOpening ⟨tag.name, attributes⟩) := by
  unfold addElement at h
  split at h
  · cases h
  next hroot =>
    split at h
    · cases h
    next attributes hattributes =>
      cases h
      exact ⟨attributes, hattributes, Bool.eq_false_iff.2 hroot, rfl⟩

lemma addElement_tag {opening : Opening} (hkeyed : opening.Keyed)
    (hroot : (b.openElements.isEmpty && b.hasRoot) = false) (place : Place) :
    b.addElement place opening.tag =
      .ok (b.document.size, opening.bindings, b.addOpening opening) := by
  simp only [addElement, hroot, readAttributes_tag hkeyed]
  rfl

lemma step_opening {place : Place} {tag : Tag} (h : b.step ⟨place, .opening tag⟩ = .ok b') :
    ∃ attributes, readAttributes place tag = .ok attributes ∧
      b' = b.enter ⟨tag.name, attributes⟩ ∧
        (∀ place, b.step ⟨place, .opening (Opening.tag ⟨tag.name, attributes⟩)⟩ = .ok b') ∧
          ∀ place, b.step ⟨place, .selfClosing (Opening.tag ⟨tag.name, attributes⟩)⟩ =
            .ok (b.addOpening ⟨tag.name, attributes⟩) := by
  simp only [step] at h
  split at h
  · cases h
  next hadded =>
    obtain ⟨attributes, hread, hroot, heq⟩ := addElement_eq_ok hadded
    have hkeyed := Opening.keyed_of_readAttributes hread tag.name
    cases heq
    cases h
    refine ⟨attributes, hread, rfl, fun place => ?_, fun place => ?_⟩
    · simp only [step, addElement_tag hkeyed hroot]
      rfl
    · simp only [step, addElement_tag hkeyed hroot]

lemma step_selfClosing {place : Place} {tag : Tag}
    (h : b.step ⟨place, .selfClosing tag⟩ = .ok b') :
    ∃ attributes, readAttributes place tag = .ok attributes ∧
      b' = b.addOpening ⟨tag.name, attributes⟩ ∧
        ∀ place, b.step ⟨place, .selfClosing (Opening.tag ⟨tag.name, attributes⟩)⟩ = .ok b' := by
  simp only [step] at h
  split at h
  · cases h
  next hadded =>
    obtain ⟨attributes, hread, hroot, heq⟩ := addElement_eq_ok hadded
    have hkeyed := Opening.keyed_of_readAttributes hread tag.name
    cases heq
    cases h
    refine ⟨attributes, hread, rfl, fun place => ?_⟩
    simp only [step, addElement_tag hkeyed hroot]

lemma step_closing {place : Place} {name : List Char}
    (h : b.step ⟨place, .closing name⟩ = .ok b') :
    ∃ opened others, b.openElements = opened :: others ∧ opened.name = name ∧
      b' = { b with openElements := others, scopes := b.scopes.drop 1 } ∧
        ∀ place, b.step ⟨place, .closing name⟩ = .ok b' := by
  simp only [step, close] at h
  split at h
  · cases h
  next opened others hopened =>
    split at h
    next hname =>
      cases h
      refine ⟨opened, others, hopened, hname, rfl, fun place => ?_⟩
      simp only [step, close, hopened, hname, if_true]
    next => cases h

/-- An event that is no tag makes a leaf, as the one that is written for it does. -/
structure Makes (b : Builder) (raw : Event) (leaf : Leaf) (b' : Builder) : Prop where
  fits : leaf.Fits
  respells : raw.Respells leaf.event
  eq_addLeaf : b' = b.addLeaf leaf.kind
  step : ∀ place, b.step ⟨place, leaf.event⟩ = .ok b'

lemma makes_of_step {place : Place} (leaf : Leaf) (hfits : leaf.Fits)
    (hstep : ∀ place, b.step ⟨place, leaf.event⟩ = .ok (b.addLeaf leaf.kind))
    (h : b.step ⟨place, leaf.event⟩ = .ok b') : b.Makes leaf.event leaf b' := by
  rw [hstep place] at h
  cases h
  exact ⟨hfits, .other (by cases leaf <;> rfl), rfl, hstep⟩

lemma makes_text {place : Place} {raw : List Char} (h : b.step ⟨place, .text raw⟩ = .ok b') :
    ∃ value, b.Makes (.text raw) (.text value) b' := by
  simp only [step, addText] at h
  split at h
  · cases h
  next value hvalue =>
    split at h
    · cases h
    next hblank =>
      cases h
      refine ⟨value, trivial, .text hvalue, rfl, fun place => ?_⟩
      simp only [Leaf.event, step, addText, resolve_escapeText, if_neg hblank]

lemma makes_doctype {place : Place} {content : List Char}
    (h : b.step ⟨place, .doctype content⟩ = .ok b') :
    b.Makes (.doctype content) (.doctype (trim content)) b' := by
  cases h
  refine ⟨trim_trim content, .doctype content, rfl, fun place => ?_⟩
  simp only [Leaf.event, step, trim_trim]

/-! ## Runs -/

/-- Accepted events are, but for their spelling, those of contents that complete the document. -/
theorem exists_completes {placed : List PlacedEvent} (hrun : b.run placed = .ok b')
    (hclosed : b'.openElements = []) :
    ∃ events, Completes b.document b.openElements b.scopes events b'.document ∧
      Runs b events b' ∧ Respelled (placed.map PlacedEvent.event) events := by
  induction placed generalizing b with
  | nil =>
    cases hrun
    rw [hclosed]
    exact ⟨[], .last .nil trivial, .nil _, .nil⟩
  | cons head placed ih =>
    obtain ⟨place, event⟩ := head
    rw [run] at hrun
    split at hrun
    · cases hrun
    next next hstep =>
      obtain ⟨events, hcompletes, hruns, hrespelled⟩ := ih hrun
      rw [List.map_cons]
      have hleaf : ∀ leaf : Leaf, b.Makes event leaf next →
          ∃ events, Completes b.document b.openElements b.scopes events b'.document ∧
            Runs b events b' ∧ Respelled (event :: placed.map PlacedEvent.event) events := by
        rintro leaf ⟨hfits, hrespells, rfl, hmakes⟩
        exact ⟨leaf.event :: events, hcompletes.leaf hfits, .cons hmakes hruns,
          .cons hrespells hrespelled⟩
      cases event with
      | opening tag =>
        obtain ⟨attributes, hread, rfl, hopen, hwhole⟩ := step_opening hstep
        have hkeyed := Opening.keyed_of_readAttributes hread tag.name
        obtain ⟨inner, rest, rfl, helement⟩ := Completes.element hkeyed hcompletes
        refine ⟨Opening.events ⟨tag.name, attributes⟩ inner ++ rest, helement, ?_⟩
        rw [Opening.events]
        split
        next hnil =>
          obtain rfl := List.isEmpty_iff.1 hnil
          -- a start tag with its end tag right behind it is written as one tag
          cases hruns with
          | cons hclose hruns =>
            obtain ⟨opened, others, hopened, -, heq, -⟩ := step_closing (hclose place)
            cases hopened
            rw [heq] at hruns
            exact ⟨.cons hwhole hruns, .merge hread hrespelled⟩
        next =>
          rw [List.cons_append, List.append_assoc, List.singleton_append]
          exact ⟨.cons hopen hruns, .cons (.opening hread) hrespelled⟩
      | selfClosing tag =>
        obtain ⟨attributes, hread, rfl, hwhole⟩ := step_selfClosing hstep
        have hkeyed := Opening.keyed_of_readAttributes hread tag.name
        exact ⟨_, hcompletes.selfClosing hkeyed, .cons hwhole hruns,
          .cons (.selfClosing hread) hrespelled⟩
      | closing name =>
        obtain ⟨opened, others, hopened, rfl, rfl, hclose⟩ := step_closing hstep
        rw [hopened]
        exact ⟨_, hcompletes.closing, .cons hclose hruns, .cons (.other rfl) hrespelled⟩
      | text raw =>
        obtain ⟨value, hmakes⟩ := makes_text hstep
        exact hleaf _ hmakes
      | cdata content =>
        exact hleaf _ (makes_of_step (.cdata content) trivial (fun _ => rfl) hstep)
      | comment content =>
        exact hleaf _ (makes_of_step (.comment content) trivial (fun _ => rfl) hstep)
      | declaration content =>
        exact hleaf _ (makes_of_step (.declaration content) trivial (fun _ => rfl) hstep)
      | processing content =>
        exact hleaf _ (makes_of_step (.processing content) trivial (fun _ => rfl) hstep)
      | doctype content => exact hleaf _ (makes_doctype hstep)

/-! ## Names of open elements -/

/-- The builder closes the elements that the reader takes to be open. -/
lemma trackNames_of_step {placed : PlacedEvent} (h : b.step placed = .ok b') :
    trackNames (b.openElements.map OpenElement.name) placed.event =
      .ok (b'.openElements.map OpenElement.name) := by
  obtain ⟨place, event⟩ := placed
  cases event with
  | opening tag =>
    obtain ⟨attributes, -, rfl, -⟩ := step_opening h
    rfl
  | selfClosing tag =>
    obtain ⟨attributes, -, rfl, -⟩ := step_selfClosing h
    rfl
  | closing name =>
    obtain ⟨opened, others, hopened, rfl, rfl, -⟩ := step_closing h
    simp only [hopened, List.map_cons, trackNames, if_true]
  | text raw =>
    simp only [step, addText] at h
    split at h
    · cases h
    · split at h <;> cases h
      rfl
  | _ =>
    cases h
    rfl

lemma trackNames_of_run {placed : List PlacedEvent} (h : b.run placed = .ok b') :
    (placed.map PlacedEvent.event).foldlM trackNames (b.openElements.map OpenElement.name) =
      .ok (b'.openElements.map OpenElement.name) := by
  induction placed generalizing b with
  | nil =>
    cases h
    rfl
  | cons head placed ih =>
    rw [run] at h
    split at h
    · cases h
    next next hstep =>
      rw [List.map_cons, List.foldlM_cons, trackNames_of_step hstep]
      exact ih h

end Builder

/-! ## Whole texts -/

/-- A content whose events, in the spelling that is used for writing, make a document. -/
structure Content.Builds (content : Content) (d : Document) : Prop where
  eq_ofForest : d = Document.ofForest (content.trees [])
  runs : ∃ b : Builder, Builder.empty.Runs content.events b ∧ b.openElements = [] ∧
    b.hasRoot = true ∧ b.document = d
  fits : content.Fits
  written : ∀ event ∈ content.events, event.Written
  separated : Separated content.events

namespace Content.Builds

variable {content : Content} {d : Document}

lemma displays (h : content.Builds d) : d.Displays (content.trees []) :=
  h.eq_ofForest ▸ Document.displays_ofForest _

lemma parent_root (h : content.Builds d) : d.parent Document.root = none :=
  h.eq_ofForest ▸ Document.parent_root_ofForest _

lemma descendants_root (h : content.Builds d) :
    d.descendants Document.root = List.range' 1 (d.size - 1) :=
  h.eq_ofForest ▸ Document.descendants_ofForest _

lemma mem_descendants_root (h : content.Builds d) {id : NodeId} (hid : id ≠ Document.root)
    (hlt : id < d.size) : id ∈ d.descendants Document.root := by
  obtain rfl := h.eq_ofForest
  exact Document.mem_descendants_ofForest hid hlt

end Content.Builds

/-- A content whose events make a document, if they can be read. -/
structure Content.Drafts (content : Content) (d : Document) : Prop where
  eq_ofForest : d = Document.ofForest (content.trees [])
  runs : ∃ b : Builder, Builder.empty.Runs content.events b ∧ b.openElements = [] ∧
    b.hasRoot = true ∧ b.document = d
  fits : content.Fits
  drafted : Drafted content.events
  separated : Separated content.events

lemma Content.Builds.drafts {content : Content} {d : Document} (h : content.Builds d) :
    content.Drafts d where
  eq_ofForest := h.eq_ofForest
  runs := h.runs
  fits := h.fits
  drafted := .of_written h.written
  separated := h.separated

lemma Content.Drafts.builds {content : Content} {d : Document} (h : content.Drafts d)
    (hwritten : ∀ event ∈ content.events, event.Written) : content.Builds d where
  eq_ofForest := h.eq_ofForest
  runs := h.runs
  fits := h.fits
  written := hwritten
  separated := h.separated

/-- How a text that is accepted has been read and built. -/
lemma build_of_parseChars {text : List Char} {d : Document} (h : parseChars text = .ok d) :
    ∃ (place : Place) (b : Builder), (Transcript.ofText text).ending = .finished place ∧
      Builder.empty.run (Transcript.ofText text).events = .ok b ∧ b.openElements = [] ∧
        b.hasRoot = true ∧ b.document = d := by
  rw [parseChars, Transcript.build] at h
  split at h
  · cases h
  next b hrun =>
    unfold Builder.finish at h
    split at h
    · cases h
    next place hending =>
      split at h
      · cases h
      next hopened =>
        split at h
        next hroot =>
          cases h
          exact ⟨place, b, hending, hrun, hopened, hroot, rfl⟩
        next => cases h

/-- A text that is accepted has a content, and if this is written as the same text again, its events
are sealed. -/
theorem exists_content {text : List Char} {d : Document} (h : parseChars text = .ok d) :
    ∃ content : Content, content.Builds d ∧
      (content.events.flatMap Event.markup = dropByteOrderMark text →
        ∀ event ∈ content.events, event.Sealed) := by
  obtain ⟨-, b, -, hrun, hopened, hroot, rfl⟩ := build_of_parseChars h
  have htranscribed := transcribed_readFrom (byteLength (dropByteOrderMark text))
    ((dropByteOrderMark text).length + 1) [] (dropByteOrderMark text)
  obtain ⟨events, hcompletes, hruns, hrespelled⟩ := Builder.exists_completes hrun hopened
  obtain ⟨content, rfl, hfits, hdocument⟩ := hcompletes.exists_content
  exact ⟨content, ⟨hdocument, ⟨b, hruns, hopened, hroot, rfl⟩, hfits,
    hrespelled.written htranscribed.readable, hrespelled.separated htranscribed.separated⟩,
    hrespelled.isSealed htranscribed⟩

/-- A document that has been read is well-formed. -/
theorem wellFormed_of_parse {text : String} {d : Document} (h : parse text = .ok d) :
    d.WellFormed := by
  obtain ⟨content, hbuilds, -⟩ := exists_content h
  exact hbuilds.displays.wellFormed

/-- Markup that is put together from pieces is read character by character. -/
lemma parse_concat (pieces : List (List Char)) {d : Document}
    (h : parseChars pieces.flatten = .ok d) :
    parse (concat (pieces.map String.ofList)) = .ok d := by
  rw [parse, toList_concat_ofList, h]

end Markup

end WordFields
