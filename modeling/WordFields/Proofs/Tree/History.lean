import WordFields.Proofs.Markup.Building
import WordFields.Proofs.Tree.Ascent

/-!
# Documents under edits

The parent of a node and the lists of children are two records of one tree, which every edit has to
keep in step.  An `Edit` is a call of one of the editing functions.  If no call puts a node below
itself, moves the document node or uses a handle that has not been given (`Edit.Allowed`), a
document stays well-formed, whatever is done to it (`WellFormed.editAll`), and a handle goes on to
stand for a node of its kind (`continues_editAll`).  `Document.sound_editAll` says so in terms of
what is stored, for every document that is new or has been read.
-/

namespace WordFields

/-- A change of a document by one of its editing functions. -/
inductive Edit where
  | create (kind : NodeKind)
  | appendChild (top child : NodeId)
  | insertBefore (id reference : NodeId)
  | remove (id : NodeId)
  | setTextContent (id : NodeId) (text : String)
  | setValue (id : NodeId) (value : String)
  | setAttribute (id : NodeId) (name value : String)
  deriving DecidableEq

namespace Document

/-- The document after an edit. -/
def edit (d : Document) : Edit → Document
  | .create kind => (d.create kind).2
  | .appendChild top child => d.appendChild top child
  | .insertBefore id reference => (d.insertBefore id reference).2
  | .remove id => d.remove id
  | .setTextContent id text => d.setTextContent id text
  | .setValue id value => (d.setValue id value).2
  | .setAttribute id name value => d.setAttribute id name value

def editAll (d : Document) (edits : List Edit) : Document :=
  edits.foldl edit d

end Document

/-- Whether the handles of an edit have been given, and the edit neither moves the document node nor
puts a node below itself. -/
def Edit.Allowed (d : Document) : Edit → Prop
  | create _ => True
  | appendChild top child =>
    top < d.size ∧ child < d.size ∧ child ≠ Document.root ∧ top ≠ child ∧ top ∉ d.descendants child
  | insertBefore id reference =>
    id < d.size ∧ reference < d.size ∧ id ≠ Document.root ∧ reference ∉ d.descendants id
  | remove id => id < d.size
  | setTextContent id _ => id < d.size
  | setValue id _ => id < d.size
  | setAttribute id _ _ => id < d.size

instance (d : Document) : DecidablePred (Edit.Allowed d)
  | .create _ => inferInstanceAs (Decidable True)
  | .appendChild top child => inferInstanceAs (Decidable (top < d.size ∧ child < d.size ∧
      child ≠ Document.root ∧ top ≠ child ∧ top ∉ d.descendants child))
  | .insertBefore id reference => inferInstanceAs (Decidable (id < d.size ∧ reference < d.size ∧
      id ≠ Document.root ∧ reference ∉ d.descendants id))
  | .remove id | .setTextContent id _ | .setValue id _ | .setAttribute id _ _ =>
    inferInstanceAs (Decidable (id < d.size))

namespace Document

/-- Whether each edit is allowed when its turn comes. -/
def Allows (d : Document) : List Edit → Prop
  | [] => True
  | edit :: edits => edit.Allowed d ∧ (d.edit edit).Allows edits

instance decidableAllows (d : Document) : (edits : List Edit) → Decidable (d.Allows edits)
  | [] => inferInstanceAs (Decidable True)
  | edit :: edits =>
    have := decidableAllows (d.edit edit) edits
    inferInstanceAs (Decidable (edit.Allowed d ∧ (d.edit edit).Allows edits))

variable {d d' d'' : Document}

lemma editAll_append (d : Document) (edits edits' : List Edit) :
    d.editAll (edits ++ edits') = (d.editAll edits).editAll edits' :=
  List.foldl_append

/-! ## Documents stay well-formed -/

theorem WellFormed.edit (h : d.WellFormed) {edit : Edit} (hallowed : edit.Allowed d) :
    (d.edit edit).WellFormed := by
  cases edit with
  | create kind => exact h.create kind
  | appendChild top child =>
    obtain ⟨htop, hchild, -, hne, hapart⟩ := hallowed
    exact h.appendChild htop hchild hne (mt h.mem_descendants.2 hapart)
  | insertBefore id reference =>
    obtain ⟨hid, -, -, hapart⟩ := hallowed
    exact h.insertBefore hid (mt h.mem_descendants.2 hapart)
  | remove id => exact h.remove id
  | setTextContent id text => exact h.setTextContent hallowed text
  | setValue id value => exact h.setValue id value
  | setAttribute id name value => exact h.setAttribute id name value

theorem WellFormed.editAll (h : d.WellFormed) {edits : List Edit} (hallowed : d.Allows edits) :
    (d.editAll edits).WellFormed := by
  induction edits generalizing d with
  | nil => exact h
  | cons edit edits ih => exact ih (h.edit hallowed.1) hallowed.2

/-! ## Handles keep their meaning -/

/-- A document in which the nodes of another one still are, with the kinds that they had there but
for their content. -/
structure Continues (d d' : Document) : Prop where
  size_le : d.size ≤ d'.size
  sort_eq : ∀ id, id < d.size → (d'.kind id).ctorIdx = (d.kind id).ctorIdx

namespace Continues

lemma refl (d : Document) : Continues d d :=
  ⟨Nat.le_refl _, fun _ _ => rfl⟩

lemma trans (h : Continues d d') (h' : Continues d' d'') : Continues d d'' where
  size_le := Nat.le_trans h.size_le h'.size_le
  sort_eq id hid := (h'.sort_eq id (Nat.lt_of_lt_of_le hid h.size_le)).trans (h.sort_eq id hid)

lemma of_kind_eq (hsize : d.size ≤ d'.size) (hkind : ∀ id, id < d.size → d'.kind id = d.kind id) :
    Continues d d' :=
  ⟨hsize, fun id hid => congrArg NodeKind.ctorIdx (hkind id hid)⟩

/-- The content of a node may change as long as its sort does not. -/
lemma setKind {id : NodeId} {kind : NodeKind} (h : kind.ctorIdx = (d.kind id).ctorIdx) :
    Continues d (d.setKind id kind) := by
  refine ⟨(size_setKind d id kind).ge, fun x _ => ?_⟩
  rw [kind_setKind]
  split
  next hx => rw [hx.1, h]
  next => rfl

end Continues

lemma continues_setTextContent (d : Document) (id : NodeId) (text : String) :
    Continues d (d.setTextContent id text) := by
  unfold setTextContent
  dsimp only
  split
  · exact .of_kind_eq (by simp) fun x _ => kind_clearChildren d id x
  · refine .of_kind_eq (by simp) fun x hx => ?_
    rw [kind_appendNew, size_clearChildren, if_neg (Nat.ne_of_lt hx), kind_clearChildren]

lemma continues_setValue (d : Document) (id : NodeId) (value : String) :
    Continues d (d.setValue id value).2 := by
  unfold setValue
  split
  next hkind => exact .setKind (congrArg NodeKind.ctorIdx hkind).symm
  next hkind => exact .setKind (congrArg NodeKind.ctorIdx hkind).symm
  next hkind => exact .setKind (congrArg NodeKind.ctorIdx hkind).symm
  next => exact .refl d

lemma continues_setAttribute (d : Document) (id : NodeId) (name value : String) :
    Continues d (d.setAttribute id name value) := by
  unfold setAttribute
  split
  next hkind => exact .setKind (congrArg NodeKind.ctorIdx hkind).symm
  next => exact .refl d

theorem continues_edit (d : Document) (edit : Edit) : Continues d (d.edit edit) := by
  cases edit with
  | create kind =>
    refine .of_kind_eq (by simp [Document.edit]) fun id hid => ?_
    exact (kind_create d kind id).trans (if_neg (Nat.ne_of_lt hid))
  | appendChild top child => exact .of_kind_eq (by simp [Document.edit]) (by simp [Document.edit])
  | insertBefore id reference =>
    exact .of_kind_eq (by simp [Document.edit]) (by simp [Document.edit])
  | remove id => exact .of_kind_eq (by simp [Document.edit]) (by simp [Document.edit])
  | setTextContent id text => exact continues_setTextContent d id text
  | setValue id value => exact continues_setValue d id value
  | setAttribute id name value => exact continues_setAttribute d id name value

theorem continues_editAll (d : Document) (edits : List Edit) : Continues d (d.editAll edits) := by
  induction edits generalizing d with
  | nil => exact .refl d
  | cons edit edits ih => exact (continues_edit d edit).trans (ih (d.edit edit))

lemma sort_editAll_create (d : Document) (kind : NodeKind) (edits : List Edit) :
    (((d.create kind).2.editAll edits).kind (d.create kind).1).ctorIdx = kind.ctorIdx := by
  have hlt : d.size < (d.create kind).2.size := by
    rw [size_create]
    exact Nat.lt_succ_self _
  have hkind : (d.create kind).2.kind d.size = kind := by
    rw [kind_create, if_pos rfl]
  exact ((continues_editAll _ edits).sort_eq d.size hlt).trans (congrArg NodeKind.ctorIdx hkind)

/-! ## The document node stays on top -/

lemma WellFormed.parent_root_edit (h : d.WellFormed) (hroot : d.parent root = none) {edit : Edit}
    (hallowed : edit.Allowed d) : (d.edit edit).parent root = none := by
  cases edit with
  | create kind => exact (parent_create d kind root).trans hroot
  | appendChild top child =>
    obtain ⟨-, hchild, hne, -, -⟩ := hallowed
    rw [Document.edit, parent_appendChild hchild, if_neg hne.symm, hroot]
  | insertBefore id reference =>
    obtain ⟨hid, -, hne, -⟩ := hallowed
    by_cases hdetached : reference = id ∨ d.parent reference = none
    · rw [Document.edit, insertBefore_eq_remove hdetached, parent_remove, if_neg hne.symm, hroot]
    · obtain ⟨hother, hsome⟩ := not_or.1 hdetached
      obtain ⟨top, htop⟩ := Option.ne_none_iff_exists'.1 hsome
      rw [Document.edit, (h.moved_insertBefore hid hother htop).parent_eq, if_neg hne.symm, hroot]
  | remove id => rw [Document.edit, parent_remove, hroot, ite_self]
  | setTextContent id text =>
    have hclear : (d.clearChildren id).parent root = none := by
      rw [h.parent_clearChildren, hroot, ite_self]
    unfold Document.edit Document.setTextContent
    dsimp only
    split
    · exact hclear
    · have hnew : root ≠ d.size := (Nat.zero_lt_of_lt hallowed).ne
      rw [parent_appendNew, size_clearChildren, if_neg hnew, hclear]
  | setValue id value => exact (parent_setValue d id root value).trans hroot
  | setAttribute id name value => exact (parent_setAttribute d id name value root).trans hroot

lemma WellFormed.parent_root_editAll (h : d.WellFormed) (hroot : d.parent root = none)
    {edits : List Edit} (hallowed : d.Allows edits) : (d.editAll edits).parent root = none := by
  induction edits generalizing d with
  | nil => exact hroot
  | cons edit edits ih =>
    exact ih (h.edit hallowed.1) (h.parent_root_edit hroot hallowed.1) hallowed.2

/-! ## What is stored -/

/-- What the store of a document has to satisfy to be read as trees. -/
structure Sound (d : Document) : Prop where
  mem_children_iff : ∀ id child : NodeId, child ∈ d.children id ↔ d.parent child = some id
  nodup_children : ∀ id : NodeId, (d.children id).Nodup
  ascent_ends : ∀ id : NodeId, ∃ steps : Nat,
    (fun above => above.bind d.parent)^[steps] (some id) = none
  child_lt_size : ∀ id, ∀ child ∈ d.children id, child < d.size
  parent_lt_size : ∀ id, ∀ parent ∈ d.parent id, parent < d.size
  parent_root : d.parent root = none

lemma WellFormed.sound (h : d.WellFormed) (hroot : d.parent root = none) : d.Sound where
  mem_children_iff _ _ := ⟨h.parent_of_mem, h.mem_of_parent⟩
  nodup_children := h.nodup_children
  ascent_ends id := ⟨d.size + 1, h.iterate_parent_eq_none (Nat.lt_succ_of_le (d.level_le_size id))⟩
  child_lt_size _ _ hchild := h.child_lt_size hchild
  parent_lt_size _ _ hparent := lt_size_of_mem_children (h.mem_of_parent hparent)
  parent_root := hroot

/-- A document that is new or has been read stays sound under edits, and a handle that was there or
was given at some point goes on to stand for a node of the same kind. -/
theorem sound_editAll {start : Document}
    (hstart : start = .empty ∨ ∃ text, Markup.parse text = .ok start) {edits : List Edit}
    (hallowed : start.Allows edits) :
    (start.editAll edits).Sound ∧
      (∀ before after, edits = before ++ after →
        Continues (start.editAll before) (start.editAll edits)) ∧
      ∀ before kind after, edits = before ++ .create kind :: after →
        ((start.editAll edits).kind ((start.editAll before).create kind).1).ctorIdx =
          kind.ctorIdx := by
  obtain ⟨hd, hroot⟩ : start.WellFormed ∧ start.parent root = none := by
    rcases hstart with rfl | ⟨text, htext⟩
    · exact ⟨wellFormed_empty, rfl⟩
    · obtain ⟨content, hbuilds, -⟩ := Markup.exists_content htext
      exact ⟨hbuilds.displays.wellFormed, hbuilds.parent_root⟩
  refine ⟨(hd.editAll hallowed).sound (hd.parent_root_editAll hroot hallowed),
    fun before after hedits => ?_, fun before kind after hedits => ?_⟩
  · rw [hedits, editAll_append]
    exact continues_editAll (start.editAll before) after
  · rw [hedits, editAll_append]
    exact sort_editAll_create (start.editAll before) kind after

def noteMarkup : String :=
  "<r><p>one</p><p>two</p></r>"

/-- A paragraph is made and filled, moved to the front and then out of the document. -/
def noteEdits : List Edit :=
  [.create (.text "three"), .create (.comment "new"), .appendChild 1 6, .appendChild 2 7,
    .insertBefore 4 2, .setTextContent 2 "four", .setValue 8 "five", .setAttribute 4 "k" "v",
    .remove 4, .insertBefore 2 4, .appendChild 4 2]

theorem sound_editAll_note : ∃ d, Markup.parse noteMarkup = .ok d ∧ d.Allows noteEdits ∧
    (d.editAll noteEdits).Sound ∧ (d.editAll noteEdits).children 4 = [5, 2] := by
  refine ⟨_, rfl, by decide +kernel, ?_, by decide +kernel⟩
  exact (@sound_editAll _ (.inr ⟨noteMarkup, rfl⟩) noteEdits (by decide +kernel)).1

end Document

end WordFields
