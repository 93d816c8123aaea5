import WordFields.Proofs.Tree.WellFormed
import WordFields.Tree.Edit

/-!
# What edits change

The edits of a document in terms of its three views, the kind, the parent and the children of each
node.  Every equation holds for all nodes at once, so it says both what an edit changes and that it
changes nothing else.  The edits that later proofs need keep a document well-formed.
-/

namespace WordFields.Document

/-! ## Changes of one node -/

lemma node_modify (d : Document) (id x : NodeId) (change : Node → Node) :
    (d.modify id change).node x =
      if x = id ∧ id < d.size then change (d.node x) else d.node x := by
  simp only [modify, node, size, Array.getElem?_modify]
  by_cases hx : x = id
  · subst hx
    by_cases hlt : x < d.nodes.size
    · simp [hlt]
    · simp [hlt]
  · simp [hx, Ne.symm hx]

@[simp] lemma size_modify (d : Document) (id : NodeId) (change : Node → Node) :
    (d.modify id change).size = d.size := by
  simp [modify, size]

lemma node_of_size_le {d : Document} {id : NodeId} (h : d.size ≤ id) :
    d.node id = Node.loose .document := by
  rw [node, Array.getElem?_eq_none h, Option.getD_none]

/-- A document is known by its three views. -/
lemma ext_views {d d' : Document} (hsize : d'.size = d.size) (hkind : ∀ x, d'.kind x = d.kind x)
    (hparent : ∀ x, d'.parent x = d.parent x) (hchildren : ∀ x, d'.children x = d.children x) :
    d' = d := by
  have hnode : ∀ x, d'.node x = d.node x := fun x => by
    show (⟨d'.kind x, d'.parent x, d'.children x⟩ : Node) = d.node x
    rw [hkind, hparent, hchildren]
    rfl
  obtain ⟨nodes⟩ := d
  obtain ⟨nodes'⟩ := d'
  congr 1
  refine Array.ext hsize fun i hi' hi => ?_
  have hi := hnode i
  simpa [node, Array.getElem?_eq_getElem, *] using hi

lemma children_of_size_le {d : Document} {id : NodeId} (h : d.size ≤ id) : d.children id = [] := by
  rw [children, node_of_size_le h]
  rfl

@[simp] lemma size_setParent (d : Document) (id : NodeId) (parent : Option NodeId) :
    (d.setParent id parent).size = d.size :=
  size_modify ..

@[simp] lemma kind_setParent (d : Document) (id x : NodeId) (parent : Option NodeId) :
    (d.setParent id parent).kind x = d.kind x := by
  unfold kind setParent
  rw [node_modify]
  split <;> rfl

@[simp] lemma children_setParent (d : Document) (id x : NodeId) (parent : Option NodeId) :
    (d.setParent id parent).children x = d.children x := by
  unfold children setParent
  rw [node_modify]
  split <;> rfl

lemma parent_setParent (d : Document) (id x : NodeId) (parent : Option NodeId) :
    (d.setParent id parent).parent x =
      if x = id ∧ id < d.size then parent else d.parent x := by
  unfold Document.parent setParent
  rw [node_modify]
  split <;> rfl

@[simp] lemma size_setChildren (d : Document) (id : NodeId) (children : List NodeId) :
    (d.setChildren id children).size = d.size :=
  size_modify ..

@[simp] lemma kind_setChildren (d : Document) (id x : NodeId) (children : List NodeId) :
    (d.setChildren id children).kind x = d.kind x := by
  unfold kind setChildren
  rw [node_modify]
  split <;> rfl

@[simp] lemma parent_setChildren (d : Document) (id x : NodeId) (children : List NodeId) :
    (d.setChildren id children).parent x = d.parent x := by
  unfold parent setChildren
  rw [node_modify]
  split <;> rfl

lemma children_setChildren (d : Document) (id x : NodeId) (children : List NodeId) :
    (d.setChildren id children).children x =
      if x = id ∧ id < d.size then children else d.children x := by
  unfold Document.children setChildren
  rw [node_modify]
  split <;> rfl

/-! ## Removal -/

@[simp] lemma size_remove (d : Document) (id : NodeId) : (d.remove id).size = d.size := by
  unfold remove
  split <;> simp

@[simp] lemma kind_remove (d : Document) (id x : NodeId) : (d.remove id).kind x = d.kind x := by
  unfold remove
  split <;> simp

lemma parent_remove (d : Document) (id x : NodeId) :
    (d.remove id).parent x = if x = id then none else d.parent x := by
  have houtside : ¬ id < d.size → d.parent id = none := by
    intro hlt
    rw [parent, node_of_size_le (Nat.le_of_not_lt hlt)]
    rfl
  unfold remove
  split <;> simp only [parent_setParent, parent_setChildren, size_setChildren]
  all_goals
    by_cases hx : x = id
    · subst hx
      by_cases hlt : x < d.size
      · simp [hlt]
      · simp [hlt, houtside hlt]
    · simp [hx]

lemma WellFormed.filter_ne_eq_erase {d : Document} (h : d.WellFormed) (id x : NodeId) :
    (d.children x).filter (· ≠ id) = (d.children x).erase id := by
  rw [(h.nodup_children x).erase_eq_filter]
  simp only [ne_eq, decide_not]
  rfl

/-- Removing a node takes it out of every list of children and changes no list otherwise. -/
lemma WellFormed.children_remove {d : Document} (h : d.WellFormed) (id x : NodeId) :
    (d.remove id).children x = (d.children x).filter (· ≠ id) := by
  rw [h.filter_ne_eq_erase]
  unfold remove
  split
  next p hparent =>
    rw [children_setParent, children_setChildren]
    split
    next hx => rw [hx.1]
    next hx =>
      refine (List.erase_of_not_mem fun hmem => ?_).symm
      have hxp : x = p := Option.some.inj ((h.parent_of_mem hmem).symm.trans hparent)
      exact hx ⟨hxp, hxp ▸ lt_size_of_mem_children hmem⟩
  next hparent =>
    rw [children_setParent]
    refine (List.erase_of_not_mem fun hmem => ?_).symm
    rw [h.parent_of_mem hmem] at hparent
    cases hparent

theorem WellFormed.remove {d : Document} (h : d.WellFormed) (id : NodeId) :
    (d.remove id).WellFormed where
  parent_of_mem := by
    intro top child hchild
    rw [h.children_remove, List.mem_filter, decide_eq_true_eq] at hchild
    rw [parent_remove, if_neg hchild.2]
    exact h.parent_of_mem hchild.1
  mem_of_parent := by
    intro top child hparent
    rw [parent_remove] at hparent
    split at hparent
    · cases hparent
    next hne =>
      rw [h.children_remove, List.mem_filter, decide_eq_true_eq]
      exact ⟨h.mem_of_parent hparent, hne⟩
  nodup_children x := by
    rw [h.children_remove]
    exact (h.nodup_children x).filter _
  child_lt_size := by
    intro top child hchild
    rw [h.children_remove, List.mem_filter] at hchild
    rw [size_remove]
    exact h.child_lt_size hchild.1
  acyclic x hbelow := by
    refine h.acyclic x (hbelow.mono fun child parent hparent => ?_)
    rw [parent_remove] at hparent
    split at hparent
    · cases hparent
    · exact hparent

/-! ## New nodes -/

lemma node_create (d : Document) (kind : NodeKind) (x : NodeId) :
    (d.create kind).2.node x = if x = d.size then Node.loose kind else d.node x := by
  by_cases hx : x = d.nodes.size <;> simp [create, node, size, Array.getElem?_push, hx]

@[simp] lemma size_create (d : Document) (kind : NodeKind) :
    (d.create kind).2.size = d.size + 1 := by
  simp [create, size]

lemma kind_create (d : Document) (kind : NodeKind) (x : NodeId) :
    (d.create kind).2.kind x = if x = d.size then kind else d.kind x := by
  rw [Document.kind, node_create]
  split <;> rfl

@[simp] lemma parent_create (d : Document) (kind : NodeKind) (x : NodeId) :
    (d.create kind).2.parent x = d.parent x := by
  rw [parent, parent, node_create]
  split
  next hx => rw [hx, node_of_size_le (Nat.le_refl _)]; rfl
  next => rfl

@[simp] lemma children_create (d : Document) (kind : NodeKind) (x : NodeId) :
    (d.create kind).2.children x = d.children x := by
  rw [children, children, node_create]
  split
  next hx => rw [hx, node_of_size_le (Nat.le_refl _)]; rfl
  next => rfl

/-- Only parents, children and the size decide whether a document is well-formed. -/
lemma WellFormed.congr {d d' : Document} (h : d.WellFormed)
    (hparent : ∀ x, d'.parent x = d.parent x) (hchildren : ∀ x, d'.children x = d.children x)
    (hsize : d.size ≤ d'.size) : d'.WellFormed where
  parent_of_mem := by
    intro top child hchild
    rw [hchildren] at hchild
    rw [hparent]
    exact h.parent_of_mem hchild
  mem_of_parent := by
    intro top child hchild
    rw [hparent] at hchild
    rw [hchildren]
    exact h.mem_of_parent hchild
  nodup_children x := by
    rw [hchildren]
    exact h.nodup_children x
  child_lt_size := by
    intro top child hchild
    rw [hchildren] at hchild
    exact Nat.lt_of_lt_of_le (h.child_lt_size hchild) hsize
  acyclic x hbelow :=
    h.acyclic x (hbelow.mono fun child parent => (hparent child ▸ ·))

theorem WellFormed.create {d : Document} (h : d.WellFormed) (kind : NodeKind) :
    (d.create kind).2.WellFormed :=
  h.congr (parent_create d kind) (children_create d kind) (by simp)

/-! ## Placing a node below another -/

/-- A change of a document that takes a node from where it is and puts it among the children of
another node. -/
structure Moved (d d' : Document) (child top : NodeId) : Prop where
  size_eq : d'.size = d.size
  parent_eq : ∀ x, d'.parent x = if x = child then some top else d.parent x
  children_perm : ∀ x, (d'.children x).Perm
    ((d.children x).filter (· ≠ child) ++ if x = top then [child] else [])

namespace Moved

variable {d d' : Document} {child top : NodeId}

/-- A chain of parents after a node was placed below another either was there before, or it passes
through the new edge. -/
lemma below (h : Moved d d' child top) (hne : top ≠ child) (hapart : ¬ d.Below child top)
    {above id : NodeId} (hbelow : d'.Below above id) :
    d.Below above id ∨
      (id = child ∨ d.Below child id) ∧ (above = top ∨ d.Below above top) := by
  induction hbelow with
  | single hstep =>
    rw [h.parent_eq] at hstep
    split at hstep
    next hid => exact .inr ⟨.inl hid, .inl (Option.some.inj hstep).symm⟩
    next => exact .inl (below_of_parent hstep)
  | @tail middle above _ hstep ih =>
    rw [h.parent_eq] at hstep
    split at hstep
    next hmiddle =>
      obtain rfl : top = above := Option.some.inj hstep
      subst hmiddle
      rcases ih with hbelow | ⟨-, heq | hbelow⟩
      · exact .inr ⟨.inr hbelow, .inl rfl⟩
      · exact absurd heq.symm hne
      · exact absurd hbelow hapart
    next =>
      rcases ih with hbelow | ⟨hid, hmiddle⟩
      · exact .inl ((below_of_parent hstep).trans hbelow)
      · refine .inr ⟨hid, .inr ?_⟩
        rcases hmiddle with rfl | hbelow
        · exact below_of_parent hstep
        · exact (below_of_parent hstep).trans hbelow

lemma mem_children (h : Moved d d' child top) {id x : NodeId} :
    x ∈ d'.children id ↔ x ∈ d.children id ∧ x ≠ child ∨ id = top ∧ x = child := by
  rw [(h.children_perm id).mem_iff, List.mem_append, List.mem_filter, decide_eq_true_eq]
  by_cases hid : id = top
  · simp [hid]
  · simp [hid]

/-- A node may go below any node that is neither itself nor below it. -/
theorem wellFormed (h : Moved d d' child top) (hd : d.WellFormed) (hchild : child < d.size)
    (hne : top ≠ child) (hapart : ¬ d.Below child top) : d'.WellFormed where
  parent_of_mem := by
    intro id x hx
    rw [h.parent_eq]
    rcases h.mem_children.1 hx with ⟨hx, hxne⟩ | ⟨rfl, rfl⟩
    · rw [if_neg hxne]
      exact hd.parent_of_mem hx
    · rw [if_pos rfl]
  mem_of_parent := by
    intro id x hx
    rw [h.parent_eq] at hx
    apply h.mem_children.2
    split at hx
    next hxchild => exact .inr ⟨(Option.some.inj hx).symm, hxchild⟩
    next hxne => exact .inl ⟨hd.mem_of_parent hx, hxne⟩
  nodup_children id := by
    rw [(h.children_perm id).nodup_iff]
    refine ((hd.nodup_children id).filter _).append (by split <;> simp) ?_
    intro x hx hx'
    rw [List.mem_filter, decide_eq_true_eq] at hx
    split at hx'
    · exact hx.2 (List.mem_singleton.1 hx')
    · cases hx'
  child_lt_size := by
    intro id x hx
    rw [h.size_eq]
    rcases h.mem_children.1 hx with ⟨hx, -⟩ | ⟨-, rfl⟩
    · exact hd.child_lt_size hx
    · exact hchild
  acyclic x hbelow := by
    rcases h.below hne hapart hbelow with hold | ⟨hx | hx, hx' | hx'⟩
    · exact hd.acyclic x hold
    · exact hne (hx'.symm.trans hx)
    · exact hapart (hx ▸ hx')
    · exact hapart (hx' ▸ hx)
    · exact hapart (hx.trans hx')

end Moved

/-! ### Behind all other children -/

@[simp] lemma size_appendChild (d : Document) (top child : NodeId) :
    (d.appendChild top child).size = d.size := by
  simp [appendChild]

@[simp] lemma kind_appendChild (d : Document) (top child x : NodeId) :
    (d.appendChild top child).kind x = d.kind x := by
  simp [appendChild]

lemma parent_appendChild {d : Document} {top child : NodeId} (hchild : child < d.size)
    (x : NodeId) :
    (d.appendChild top child).parent x = if x = child then some top else d.parent x := by
  simp only [appendChild, parent_setChildren, parent_setParent, parent_remove, size_remove]
  by_cases hx : x = child
  · simp [hx, hchild]
  · simp [hx]

lemma WellFormed.children_appendChild {d : Document} (h : d.WellFormed) {top child : NodeId}
    (htop : top < d.size) (x : NodeId) :
    (d.appendChild top child).children x =
      (d.children x).filter (· ≠ child) ++ if x = top then [child] else [] := by
  simp only [appendChild, children_setChildren, children_setParent, h.children_remove,
    size_setParent, size_remove]
  by_cases hx : x = top
  · simp [hx, htop]
  · simp [hx]

theorem WellFormed.appendChild {d : Document} (h : d.WellFormed) {top child : NodeId}
    (htop : top < d.size) (hchild : child < d.size) (hne : top ≠ child)
    (hapart : ¬ d.Below child top) : (d.appendChild top child).WellFormed := by
  have hmoved : Moved d (d.appendChild top child) child top :=
    ⟨size_appendChild d top child, parent_appendChild hchild,
      fun x => .of_eq (h.children_appendChild htop x)⟩
  exact hmoved.wellFormed h hchild hne hapart

/-! ### Before another child -/

lemma placeBefore_perm {new reference : NodeId} {ids : List NodeId} (h : reference ∈ ids) :
    (placeBefore new reference ids).Perm (ids ++ [new]) := by
  induction ids with
  | nil => cases h
  | cons id ids ih =>
    rw [placeBefore]
    by_cases hid : id = reference
    · rw [if_pos hid]
      exact (List.perm_append_singleton new (id :: ids)).symm
    · rw [if_neg hid]
      exact (ih ((List.mem_cons.1 h).resolve_left (Ne.symm hid))).cons id

lemma mem_placeBefore {new reference x : NodeId} {ids : List NodeId}
    (h : x ∈ placeBefore new reference ids) : x = new ∨ x ∈ ids := by
  induction ids with
  | nil => cases h
  | cons id ids ih =>
    rw [placeBefore] at h
    split at h
    · exact List.mem_cons.1 h
    · rcases List.mem_cons.1 h with rfl | hrest
      · exact .inr List.mem_cons_self
      · exact (ih hrest).imp_right (List.mem_cons_of_mem id)

lemma placeBefore_of_not_mem {new reference : NodeId} {ids : List NodeId} (h : reference ∉ ids) :
    placeBefore new reference ids = ids := by
  induction ids with
  | nil => rfl
  | cons id ids ih =>
    obtain ⟨hne, hrest⟩ := not_or.1 (mt List.mem_cons.2 h)
    rw [placeBefore, if_neg (Ne.symm hne), ih hrest]

lemma placeBefore_append {reference : NodeId} {front : List NodeId} (h : reference ∉ front)
    (new : NodeId) (back : List NodeId) :
    placeBefore new reference (front ++ reference :: back) = front ++ new :: reference :: back := by
  induction front with
  | nil => rw [List.nil_append, placeBefore, if_pos rfl, List.nil_append]
  | cons id front ih =>
    obtain ⟨hne, hrest⟩ := not_or.1 (mt List.mem_cons.2 h)
    rw [List.cons_append, placeBefore, if_neg (Ne.symm hne), ih hrest, List.cons_append]

lemma filter_placeBefore {test : NodeId → Bool} {new : NodeId} (h : test new = false)
    (reference : NodeId) (ids : List NodeId) :
    (placeBefore new reference ids).filter test = ids.filter test := by
  induction ids with
  | nil => rfl
  | cons id ids ih =>
    rw [placeBefore]
    split
    · rw [List.filter_cons_of_neg (by simp [h])]
    · rw [List.filter_cons, List.filter_cons, ih]

section

variable {d : Document} {id reference top : NodeId}

@[simp] lemma size_insertBefore (d : Document) (id reference : NodeId) :
    (d.insertBefore id reference).2.size = d.size := by
  unfold insertBefore
  dsimp only
  split
  · split <;> simp
  · simp

@[simp] lemma kind_insertBefore (d : Document) (id reference x : NodeId) :
    (d.insertBefore id reference).2.kind x = d.kind x := by
  unfold insertBefore
  dsimp only
  split
  · split <;> simp
  · simp

/-- A node is only detached where there is nothing that it could be put before. -/
lemma insertBefore_eq_remove (h : reference = id ∨ d.parent reference = none) :
    d.insertBefore id reference = (false, d.remove id) := by
  have hparent : (d.remove id).parent reference = none := by
    rw [parent_remove]
    split
    next => rfl
    next hne => exact h.resolve_left hne
  unfold insertBefore
  simp only [hparent]

lemma WellFormed.insertBefore_eq (h : d.WellFormed) (hne : reference ≠ id)
    (hparent : d.parent reference = some top) :
    d.insertBefore id reference = (true, ((d.remove id).setParent id (some top)).setChildren top
      (placeBefore id reference ((d.children top).filter (· ≠ id)))) := by
  have hparent' : (d.remove id).parent reference = some top := by
    rw [parent_remove, if_neg hne, hparent]
  have hmem : reference ∈ (d.children top).filter (· ≠ id) :=
    List.mem_filter.2 ⟨h.mem_of_parent hparent, decide_eq_true hne⟩
  unfold insertBefore
  simp only [hparent', h.children_remove, List.contains_iff_mem, hmem, if_true]

lemma WellFormed.children_insertBefore (h : d.WellFormed) (hne : reference ≠ id)
    (hparent : d.parent reference = some top) (x : NodeId) :
    (d.insertBefore id reference).2.children x =
      if x = top then placeBefore id reference ((d.children top).filter (· ≠ id))
      else (d.children x).filter (· ≠ id) := by
  have htop : top < d.size := lt_size_of_mem_children (h.mem_of_parent hparent)
  rw [h.insertBefore_eq hne hparent]
  simp only [children_setChildren, children_setParent, size_setParent, size_remove, htop, and_true,
    h.children_remove]

lemma WellFormed.moved_insertBefore (h : d.WellFormed) (hid : id < d.size) (hne : reference ≠ id)
    (hparent : d.parent reference = some top) :
    Moved d (d.insertBefore id reference).2 id top where
  size_eq := by
    rw [h.insertBefore_eq hne hparent]
    simp
  parent_eq x := by
    rw [h.insertBefore_eq hne hparent]
    simp only [parent_setChildren, parent_setParent, size_remove, hid, and_true, parent_remove]
    by_cases hx : x = id
    · rw [if_pos hx, if_pos hx]
    · rw [if_neg hx, if_neg hx, if_neg hx]
  children_perm x := by
    rw [h.children_insertBefore hne hparent]
    have hmem : reference ∈ (d.children top).filter (· ≠ id) :=
      List.mem_filter.2 ⟨h.mem_of_parent hparent, decide_eq_true hne⟩
    by_cases hx : x = top
    · rw [if_pos hx, if_pos hx, hx]
      exact placeBefore_perm hmem
    · rw [if_neg hx, if_neg hx, List.append_nil]

theorem WellFormed.insertBefore (h : d.WellFormed) (hid : id < d.size)
    (hapart : ¬ d.Below id reference) : (d.insertBefore id reference).2.WellFormed := by
  by_cases hdetached : reference = id ∨ d.parent reference = none
  · rw [insertBefore_eq_remove hdetached]
    exact h.remove id
  · obtain ⟨hne, hsome⟩ := not_or.1 hdetached
    obtain ⟨top, htop⟩ := Option.ne_none_iff_exists'.1 hsome
    refine (h.moved_insertBefore hid hne htop).wellFormed h hid ?_ ?_
    · rintro rfl
      exact hapart (below_of_parent htop)
    · exact fun hbelow => hapart (hbelow.trans (below_of_parent htop))

end

/-! ### New nodes -/

/-- A node that the store does not have yet is nobody's child and has no place above others. -/
lemma WellFormed.filter_ne_size {d : Document} (h : d.WellFormed) (x : NodeId) :
    (d.children x).filter (· ≠ d.size) = d.children x :=
  List.filter_eq_self.2 fun _ hchild => decide_eq_true (Nat.ne_of_lt (h.child_lt_size hchild))

lemma WellFormed.not_below_new {d : Document} (h : d.WellFormed) (kind : NodeKind) (top : NodeId) :
    ¬ (d.create kind).2.Below d.size top := by
  intro hbelow
  obtain ⟨child, -, hchild⟩ := Relation.TransGen.tail'_iff.1 hbelow
  have hmem := (h.create kind).mem_of_parent hchild
  rw [children_create, children_of_size_le (Nat.le_refl _)] at hmem
  cases hmem

@[simp] lemma size_appendNew (d : Document) (top : NodeId) (kind : NodeKind) :
    (d.appendNew top kind).2.size = d.size + 1 := by
  show ((d.create kind).2.appendChild top d.size).size = _
  rw [size_appendChild, size_create]

lemma kind_appendNew (d : Document) (top : NodeId) (kind : NodeKind) (x : NodeId) :
    (d.appendNew top kind).2.kind x = if x = d.size then kind else d.kind x := by
  show ((d.create kind).2.appendChild top d.size).kind x = _
  rw [kind_appendChild, kind_create]

lemma parent_appendNew (d : Document) (top : NodeId) (kind : NodeKind) (x : NodeId) :
    (d.appendNew top kind).2.parent x = if x = d.size then some top else d.parent x := by
  have hnew : d.size < (d.create kind).2.size := by
    rw [size_create]
    exact Nat.lt_succ_self _
  show ((d.create kind).2.appendChild top d.size).parent x = _
  rw [parent_appendChild hnew, parent_create]

lemma WellFormed.children_appendNew {d : Document} (h : d.WellFormed) {top : NodeId}
    (htop : top < d.size) (kind : NodeKind) (x : NodeId) :
    (d.appendNew top kind).2.children x = d.children x ++ if x = top then [d.size] else [] := by
  have htop' : top < (d.create kind).2.size := by
    rw [size_create]
    exact Nat.lt_succ_of_lt htop
  show ((d.create kind).2.appendChild top d.size).children x = _
  rw [(h.create kind).children_appendChild htop', children_create, h.filter_ne_size]

theorem WellFormed.appendNew {d : Document} (h : d.WellFormed) {top : NodeId} (htop : top < d.size)
    (kind : NodeKind) : (d.appendNew top kind).2.WellFormed := by
  show ((d.create kind).2.appendChild top d.size).WellFormed
  apply (h.create kind).appendChild
  · rw [size_create]
    exact Nat.lt_succ_of_lt htop
  · rw [size_create]
    exact Nat.lt_succ_self _
  · exact Nat.ne_of_lt htop
  · exact h.not_below_new kind top

/-- Adds a node and puts it directly before another one. -/
def insertNew (d : Document) (reference : NodeId) (kind : NodeKind) : Document :=
  ((d.create kind).2.insertBefore d.size reference).2

section

variable {d : Document} {reference top : NodeId}

lemma WellFormed.insertNew_views (h : d.WellFormed) (kind : NodeKind)
    (hparent : d.parent reference = some top) :
    (d.insertNew reference kind).WellFormed ∧
      (d.insertNew reference kind).size = d.size + 1 ∧
      (∀ x, (d.insertNew reference kind).kind x = if x = d.size then kind else d.kind x) ∧
      ∀ x, (d.insertNew reference kind).children x =
        if x = top then placeBefore d.size reference (d.children top) else d.children x := by
  have hcreate := h.create kind
  have hne : reference ≠ d.size := Nat.ne_of_lt (h.child_lt_size (h.mem_of_parent hparent))
  have hparent' : (d.create kind).2.parent reference = some top := by
    rw [parent_create, hparent]
  have hlt : d.size < (d.create kind).2.size := by
    rw [size_create]
    exact Nat.lt_succ_self _
  have htop : top ≠ d.size := Nat.ne_of_lt (lt_size_of_mem_children (h.mem_of_parent hparent))
  have hmoved := hcreate.moved_insertBefore hlt hne hparent'
  refine ⟨hmoved.wellFormed hcreate hlt htop (h.not_below_new kind top), ?_, fun x => ?_,
    fun x => ?_⟩
  · exact hmoved.size_eq.trans (size_create d kind)
  · exact (kind_insertBefore _ _ _ x).trans (kind_create d kind x)
  · rw [insertNew, hcreate.children_insertBefore hne hparent', children_create, children_create,
      h.filter_ne_size, h.filter_ne_size]

end

/-! ## Taking all children away -/

lemma foldl_setParent_none (ids : List NodeId) (d : Document) :
    let d' := ids.foldl (fun d child => d.setParent child none) d
    d'.size = d.size ∧ (∀ x, d'.kind x = d.kind x) ∧ (∀ x, d'.children x = d.children x) ∧
      ∀ x, d'.parent x = if x ∈ ids ∧ x < d.size then none else d.parent x := by
  induction ids generalizing d with
  | nil => simp
  | cons id ids ih =>
    obtain ⟨hsize, hkind, hchildren, hparent⟩ := ih (d.setParent id none)
    refine ⟨by simpa using hsize, by simpa using hkind, by simpa using hchildren, fun x => ?_⟩
    rw [List.foldl_cons, hparent, size_setParent, parent_setParent]
    by_cases hx : x = id
    · subst hx
      by_cases hlt : x < d.size
      · simp [hlt]
      · simp [hlt]
    · simp [hx]

@[simp] lemma size_clearChildren (d : Document) (id : NodeId) :
    (d.clearChildren id).size = d.size := by
  rw [clearChildren, size_setChildren]
  exact (foldl_setParent_none (d.children id) d).1

@[simp] lemma kind_clearChildren (d : Document) (id x : NodeId) :
    (d.clearChildren id).kind x = d.kind x := by
  rw [clearChildren, kind_setChildren]
  exact (foldl_setParent_none (d.children id) d).2.1 x

lemma children_clearChildren (d : Document) (id x : NodeId) :
    (d.clearChildren id).children x = if x = id then [] else d.children x := by
  obtain ⟨hsize, -, hchildren, -⟩ := foldl_setParent_none (d.children id) d
  rw [clearChildren, children_setChildren, hsize, hchildren]
  by_cases hx : x = id
  · subst hx
    by_cases hlt : x < d.size
    · simp [hlt]
    · simp [children_of_size_le (Nat.le_of_not_lt hlt)]
  · simp [hx]

lemma WellFormed.parent_clearChildren {d : Document} (h : d.WellFormed) (id x : NodeId) :
    (d.clearChildren id).parent x = if x ∈ d.children id then none else d.parent x := by
  rw [clearChildren, parent_setChildren, (foldl_setParent_none (d.children id) d).2.2.2 x]
  by_cases hx : x ∈ d.children id
  · rw [if_pos ⟨hx, h.child_lt_size hx⟩, if_pos hx]
  · rw [if_neg fun hmem => hx hmem.1, if_neg hx]

theorem WellFormed.clearChildren {d : Document} (h : d.WellFormed) (id : NodeId) :
    (d.clearChildren id).WellFormed where
  parent_of_mem := by
    intro top child hchild
    rw [children_clearChildren] at hchild
    split at hchild
    · cases hchild
    next hne =>
      have hparent := h.parent_of_mem hchild
      rw [h.parent_clearChildren, if_neg, hparent]
      exact fun hmem => hne (Option.some.inj (hparent.symm.trans (h.parent_of_mem hmem)))
  mem_of_parent := by
    intro top child hparent
    rw [h.parent_clearChildren] at hparent
    split at hparent
    · cases hparent
    next hnot =>
      have hmem := h.mem_of_parent hparent
      rw [children_clearChildren, if_neg]
      · exact hmem
      · rintro rfl
        exact hnot hmem
  nodup_children x := by
    rw [children_clearChildren]
    split
    · exact List.nodup_nil
    · exact h.nodup_children x
  child_lt_size := by
    intro top child hchild
    rw [children_clearChildren] at hchild
    rw [size_clearChildren]
    split at hchild
    · cases hchild
    · exact h.child_lt_size hchild
  acyclic x hbelow := by
    refine h.acyclic x (hbelow.mono fun child parent hparent => ?_)
    rw [h.parent_clearChildren] at hparent
    split at hparent
    · cases hparent
    · exact hparent

theorem WellFormed.setTextContent {d : Document} (h : d.WellFormed) {id : NodeId}
    (hid : id < d.size) (text : String) : (d.setTextContent id text).WellFormed := by
  have hid' : id < (d.clearChildren id).size := by rwa [size_clearChildren]
  unfold Document.setTextContent
  dsimp only
  split
  · exact h.clearChildren id
  · exact (h.clearChildren id).appendNew hid' _

/-! ## Kinds -/

@[simp] lemma size_setKind (d : Document) (id : NodeId) (kind : NodeKind) :
    (d.setKind id kind).size = d.size :=
  size_modify ..

lemma kind_setKind (d : Document) (id x : NodeId) (kind : NodeKind) :
    (d.setKind id kind).kind x = if x = id ∧ id < d.size then kind else d.kind x := by
  unfold Document.kind setKind
  rw [node_modify]
  split <;> rfl

@[simp] lemma parent_setKind (d : Document) (id x : NodeId) (kind : NodeKind) :
    (d.setKind id kind).parent x = d.parent x := by
  unfold parent setKind
  rw [node_modify]
  split <;> rfl

@[simp] lemma children_setKind (d : Document) (id x : NodeId) (kind : NodeKind) :
    (d.setKind id kind).children x = d.children x := by
  unfold children setKind
  rw [node_modify]
  split <;> rfl

theorem WellFormed.setKind {d : Document} (h : d.WellFormed) (id : NodeId) (kind : NodeKind) :
    (d.setKind id kind).WellFormed :=
  h.congr (fun x => parent_setKind d id x kind) (fun x => children_setKind d id x kind) (by simp)

/-! ## Values -/

/-- Replacing the value of a text node changes the kind of that node and nothing else. -/
lemma kind_setValue_text {d : Document} {id : NodeId} {old : String} (value : String)
    (hkind : d.kind id = .text old) (x : NodeId) :
    (d.setValue id value).2.kind x = if x = id then .text value else d.kind x := by
  have hlt : id < d.size := by
    by_contra hge
    rw [kind, node_of_size_le (Nat.le_of_not_lt hge)] at hkind
    cases hkind
  rw [setValue, hkind]
  show (d.setKind id (.text value)).kind x = _
  unfold setKind
  rw [kind, node_modify]
  by_cases hx : x = id
  · simp [hx, hlt]
  · simp [hx, kind]

@[simp] lemma parent_setValue (d : Document) (id x : NodeId) (value : String) :
    (d.setValue id value).2.parent x = d.parent x := by
  unfold setValue setKind parent
  split <;> first | rfl | (rw [node_modify]; split <;> rfl)

@[simp] lemma children_setValue (d : Document) (id x : NodeId) (value : String) :
    (d.setValue id value).2.children x = d.children x := by
  unfold setValue setKind children
  split <;> first | rfl | (rw [node_modify]; split <;> rfl)

@[simp] lemma size_setValue (d : Document) (id : NodeId) (value : String) :
    (d.setValue id value).2.size = d.size := by
  unfold setValue setKind
  split <;> first | rfl | exact size_modify ..

theorem WellFormed.setValue {d : Document} (h : d.WellFormed) (id : NodeId) (value : String) :
    (d.setValue id value).2.WellFormed :=
  h.congr (fun x => parent_setValue d id x value) (fun x => children_setValue d id x value)
    (by simp)

/-! ## Attributes -/

lemma children_setAttribute (d : Document) (id : NodeId) (name value : String) (x : NodeId) :
    (d.setAttribute id name value).children x = d.children x := by
  unfold setAttribute
  split <;> simp

lemma parent_setAttribute (d : Document) (id : NodeId) (name value : String) (x : NodeId) :
    (d.setAttribute id name value).parent x = d.parent x := by
  unfold setAttribute
  split <;> simp

lemma size_setAttribute (d : Document) (id : NodeId) (name value : String) :
    (d.setAttribute id name value).size = d.size := by
  unfold setAttribute
  split <;> simp

theorem WellFormed.setAttribute {d : Document} (h : d.WellFormed) (id : NodeId)
    (name value : String) : (d.setAttribute id name value).WellFormed :=
  h.congr (parent_setAttribute d id name value) (children_setAttribute d id name value)
    (size_setAttribute d id name value).ge

end WordFields.Document
