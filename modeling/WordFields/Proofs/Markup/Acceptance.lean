import WordFields.Proofs.Markup.Building

/-!
# Contents that are accepted

The builder refuses little.  It accepts the events that spell a content if in each start tag the
keys can be read and are different (`Content.Fits`), and if at the top there are one element and no
text that is not blank.  By induction on the content it then adds the trees of the content below the
innermost open element (`Builder.runs_events`), and what it has made in the end is the document with
these trees (`Content.drafts`).  Nothing else is accepted (`Builder.admits_of_runs`).
-/

namespace WordFields

namespace Markup

open Text

namespace Content

/-- The number of elements that are not inside of another one. -/
def roots : Content → Nat
  | nil => 0
  | leaf _ rest => rest.roots
  | element _ _ rest => rest.roots + 1

/-- Whether all text is blank that is not inside of an element. -/
def Blank : Content → Prop
  | nil => True
  | leaf (.text value) rest => allBlank value = true ∧ rest.Blank
  | leaf _ rest => rest.Blank
  | element _ _ rest => rest.Blank

lemma Blank.tail {head : Leaf} {rest : Content} (h : (leaf head rest).Blank) : rest.Blank := by
  cases head with
  | text value => exact h.2
  | _ => exact h

end Content

namespace Builder

lemma Runs.append {b b' b'' : Builder} {events events' : List Event} (h : Runs b events b')
    (h' : Runs b' events' b'') : Runs b (events ++ events') b'' := by
  induction h with
  | nil b => exact h'
  | cons step _ ih => exact .cons step (ih h')

/-- Every step leads to one builder, so what runs behind a run goes on from its end. -/
lemma Runs.of_append {b b' b'' : Builder} {events events' : List Event} (h : Runs b events b')
    (hall : Runs b (events ++ events') b'') : Runs b' events' b'' := by
  induction h with
  | nil b => exact hall
  | cons step _ ih =>
    cases hall with
    | cons step' rest =>
      obtain rfl := Except.ok.inj ((step ⟨0, []⟩).symm.trans (step' ⟨0, []⟩))
      exact ih rest

lemma step_leaf {b : Builder} {leaf : Leaf} (hfits : leaf.Fits)
    (hblank : ∀ value, leaf = .text value → b.openElements = [] → allBlank value = true)
    (place : Place) : b.step ⟨place, leaf.event⟩ = .ok (b.addLeaf leaf.kind) := by
  cases leaf with
  | text value =>
    have hinside : (b.openElements.isEmpty && !allBlank value) = false := by
      by_cases hopened : b.openElements = []
      · simp [hblank value rfl hopened]
      · simp [hopened]
    simp only [Leaf.event, step, addText, resolve_escapeText, hinside]
    rfl
  | doctype value =>
    have htrim : trim value = value := hfits
    simp only [Leaf.event, step, htrim]
    rfl
  | _ => rfl

/-- The builder after the trees of a content have been added. -/
def addContent (b : Builder) (content : Content) : Builder :=
  { b with
    document := b.document.addForest b.currentParent (content.trees b.scopes)
    hasRoot := b.hasRoot || decide (0 < content.roots) }

/-- What a builder may not have where a content comes. -/
def Admits (b : Builder) (content : Content) : Prop :=
  b.openElements = [] → content.Blank ∧ content.roots + b.hasRoot.toNat ≤ 1

variable {b : Builder} {opening : Opening} {content rest : Content}

lemma Admits.tail {head : Leaf} (h : b.Admits (.leaf head rest)) (kind : NodeKind) :
    (b.addLeaf kind).Admits rest := fun hopened =>
  ⟨(h hopened).1.tail, (h hopened).2⟩

/-- No second element comes where a content with an element is admitted. -/
lemma Admits.hasRoot_eq (h : b.Admits (.element opening content rest)) :
    (b.openElements.isEmpty && b.hasRoot) = false := by
  by_cases hopened : b.openElements = []
  · have hroots := (h hopened).2
    have hroot : b.hasRoot = false := by
      by_contra hroot
      rw [Bool.not_eq_false] at hroot
      simp [Content.roots, hroot] at hroots
    simp [hroot]
  · simp [hopened]

/-- The builder after an element and what is inside of it have been added. -/
def addWhole (b : Builder) (opening : Opening) (content : Content) : Builder :=
  { b with
    document := b.document.addTree b.currentParent
      (.node (.element (opening.element b.scopes)) (content.trees (opening.bindings :: b.scopes)))
    hasRoot := true }

lemma Admits.behind (h : b.Admits (.element opening content rest)) :
    (b.addWhole opening content).Admits rest := fun hopened => by
  obtain ⟨hblank, hroots⟩ := h hopened
  rw [Content.roots] at hroots
  exact ⟨hblank, by simp only [addWhole, Bool.toNat_true]; omega⟩

/-- An element is added with what is inside of it, if this is added where the element is open. -/
lemma runs_element (hkeyed : opening.Keyed)
    (hroot : (b.openElements.isEmpty && b.hasRoot) = false)
    (hinner : (b.enter opening).Runs content.events ((b.enter opening).addContent content)) :
    b.Runs (opening.events content.events) (b.addWhole opening content) := by
  have hadd := addElement_tag hkeyed hroot
  rw [Opening.events]
  split
  next hempty =>
    have htrees : content.trees (opening.bindings :: b.scopes) = [] := by
      rw [← List.isEmpty_iff, ← (content.tells_trees _).isEmpty_events]
      exact hempty
    refine .cons (fun place => ?_) (.nil _)
    simp only [step, hadd, addWhole, htrees]
    rfl
  next =>
    refine .cons (fun place => ?_) (hinner.append (.cons (fun place => ?_) (.nil _)))
    · simp only [step, hadd]
      rfl
    · simp only [step, close, addContent, enter, if_true]
      rfl

/-- The events of a content lead to the builder that has its trees. -/
theorem runs_events (hfits : content.Fits) (hadmits : b.Admits content) :
    b.Runs content.events (b.addContent content) := by
  induction content generalizing b with
  | nil =>
    have heq : b.addContent .nil = b := by
      simp [addContent, Content.roots, Content.trees, Document.addForest]
    rw [heq]
    exact .nil b
  | leaf head rest ih =>
    obtain ⟨hhead, hrest⟩ := hfits
    refine .cons (step_leaf hhead fun value heq hopened => ?_) (ih hrest (hadmits.tail head.kind))
    subst heq
    exact (hadmits hopened).1.1
  | element opening content rest ihContent ihRest =>
    obtain ⟨hkeyed, hcontent, hrest⟩ := hfits
    have hinner := ihContent (b := b.enter opening) hcontent fun hopened => by cases hopened
    have heq : b.addContent (.element opening content rest) =
        (b.addWhole opening content).addContent rest := by
      simp [addContent, addWhole, Content.roots, Content.trees, Document.addForest]
      rfl
    rw [heq]
    exact (runs_element hkeyed hadmits.hasRoot_eq hinner).append (ihRest hrest hadmits.behind)

lemma hasRoot_eq_of_runs {b' : Builder} {inner more : List Event}
    (h : b.Runs (opening.events inner ++ more) b') :
    (b.openElements.isEmpty && b.hasRoot) = false := by
  by_contra hroot
  rw [Bool.not_eq_false] at hroot
  obtain ⟨e, he⟩ : ∃ e, b.addElement ⟨0, []⟩ opening.tag = .error e :=
    ⟨_, by rw [addElement, if_pos hroot]⟩
  rw [Opening.events] at h
  split at h <;>
    · cases h with
      | cons step _ =>
        have hstep := step ⟨0, []⟩
        simp only [Builder.step, he] at hstep
        cases hstep

/-- Where the events of a content can be run the content is admitted. -/
theorem admits_of_runs {b' : Builder} {more : List Event} (hfits : content.Fits)
    (h : b.Runs (content.events ++ more) b') : b.Admits content := by
  induction content generalizing b with
  | nil =>
    intro _
    refine ⟨trivial, ?_⟩
    rw [Content.roots, Nat.zero_add]
    exact Bool.toNat_le _
  | leaf head rest ih =>
    obtain ⟨hhead, hrest⟩ := hfits
    have hblank : ∀ value, head = .text value → b.openElements = [] → allBlank value = true := by
      rintro value rfl hopened
      cases h with
      | cons step _ =>
        have hstep := step ⟨0, []⟩
        by_contra hnot
        rw [Bool.not_eq_true] at hnot
        simp [Leaf.event, Builder.step, addText, resolve_escapeText, hopened, hnot] at hstep
    have hfirst : b.Runs [head.event] (b.addLeaf head.kind) :=
      .cons (step_leaf hhead hblank) (.nil _)
    have htail := ih hrest (hfirst.of_append h)
    intro hopened
    obtain ⟨hblank', hroots⟩ := htail hopened
    refine ⟨?_, hroots⟩
    cases head with
    | text value => exact ⟨hblank value rfl hopened, hblank'⟩
    | _ => exact hblank'
  | element opening content rest _ ihRest =>
    obtain ⟨hkeyed, hcontent, hrest⟩ := hfits
    rw [Content.events, List.append_assoc] at h
    have hroot := hasRoot_eq_of_runs h
    have hinner := runs_events (b := b.enter opening) hcontent fun hopened => by cases hopened
    have htail := ihRest hrest ((runs_element hkeyed hroot hinner).of_append h)
    intro hopened
    obtain ⟨hblank, hroots⟩ := htail hopened
    simp only [addWhole, Bool.toNat_true] at hroots
    simp only [hopened, List.isEmpty_nil, Bool.true_and] at hroot
    rw [hroot, Content.roots]
    exact ⟨hblank, hroots⟩

end Builder

/-- A content with one element at the top, and blank text beside it, makes the document that has its
trees. -/
theorem Content.drafts {content : Content} (hfits : content.Fits) (hblank : content.Blank)
    (hroots : content.roots = 1) (hdrafted : Drafted content.events)
    (hseparated : Separated content.events) :
    content.Drafts (Document.ofForest (content.trees [])) where
  eq_ofForest := rfl
  runs := by
    have hadmits : Builder.empty.Admits content := fun _ =>
      ⟨hblank, by simp [Builder.empty, hroots]⟩
    refine ⟨_, Builder.runs_events hfits hadmits, rfl, ?_, rfl⟩
    simp [Builder.addContent, hroots]
  fits := hfits
  drafted := hdrafted
  separated := hseparated

/-- A content that makes a document has one element at the top, and blank text beside it. -/
lemma Content.Builds.blank_roots {content : Content} {d : Document} (h : content.Builds d) :
    content.Blank ∧ content.roots = 1 := by
  obtain ⟨b, hruns, -, hroot, -⟩ := h.runs
  have hall : Builder.empty.Runs (content.events ++ []) b := by rwa [List.append_nil]
  have hadmits := Builder.admits_of_runs h.fits hall
  obtain ⟨hblank, hroots⟩ := hadmits rfl
  refine ⟨hblank, Nat.le_antisymm hroots ?_⟩
  have hend := (Builder.runs_events h.fits hadmits).of_append hall
  cases hend with
  | nil =>
    simp only [Builder.addContent, Builder.empty, Bool.false_or, decide_eq_true_eq] at hroot
    exact hroot

end Markup

end WordFields
