import WordFields.Proofs.Markup.Building

/-!
# Where a moved node goes

A node is moved by taking it out of the list that it is in and putting it into another one.  Both
may be the same list, and the places in it shift when the node is taken out.  `Reparented` is what
a move leaves alone: everything but the parent of the node, the list that it leaves and the list
that it comes into.  `WellFormed.move_exact` gives the second list, too.
-/

namespace WordFields.Document

variable {d d' : Document} {id target top : NodeId}

/-! ## What a move leaves alone -/

/-- A change that gives a node another parent, or none.  The list of the old parent loses the node,
and only the list of the new parent is left open. -/
structure Reparented (d d' : Document) (id : NodeId) (top? : Option NodeId) : Prop where
  size_eq : d'.size = d.size
  kind_eq : ∀ x, d'.kind x = d.kind x
  parent_eq : ∀ x, d'.parent x = if x = id then top? else d.parent x
  children_eq : ∀ x, top? ≠ some x →
    d'.children x = if d.parent id = some x then (d.children x).erase id else d.children x

namespace WellFormed

/-- No list but that of its parent has a node in it. -/
lemma filter_ne_eq_ite (h : d.WellFormed) (id x : NodeId) :
    (d.children x).filter (· ≠ id) =
      if d.parent id = some x then (d.children x).erase id else d.children x := by
  rw [h.filter_ne_eq_erase]
  split
  next => rfl
  next hparent => exact List.erase_of_not_mem fun hmem => hparent (h.parent_of_mem hmem)

lemma reparented_remove (h : d.WellFormed) (id : NodeId) : Reparented d (d.remove id) id none where
  size_eq := size_remove d id
  kind_eq := kind_remove d id
  parent_eq := parent_remove d id
  children_eq x _ := (h.children_remove id x).trans (h.filter_ne_eq_ite id x)

lemma reparented_appendChild (h : d.WellFormed) (hid : id < d.size) (htarget : target < d.size) :
    Reparented d (d.appendChild target id) id (some target) where
  size_eq := size_appendChild d target id
  kind_eq := kind_appendChild d target id
  parent_eq := parent_appendChild hid
  children_eq x hx := by
    have hne : x ≠ target := fun heq => hx (congrArg some heq.symm)
    rw [h.children_appendChild htarget, if_neg hne, List.append_nil, h.filter_ne_eq_ite]

lemma reparented_insertBefore (h : d.WellFormed) (hid : id < d.size) (hne : target ≠ id) :
    Reparented d (d.insertBefore id target).2 id (d.parent target) := by
  cases hparent : d.parent target with
  | none =>
    rw [insertBefore_eq_remove (.inr hparent)]
    exact h.reparented_remove id
  | some top =>
    have hmoved := h.moved_insertBefore hid hne hparent
    refine ⟨hmoved.size_eq, kind_insertBefore d id target, hmoved.parent_eq, fun x hx => ?_⟩
    have hother : x ≠ top := fun heq => hx (congrArg some heq.symm)
    rw [h.children_insertBefore hne hparent, if_neg hother, h.filter_ne_eq_ite]

/-- The list that a node is put into is the old one without the node, the node and its target being
neighbours in it. -/
lemma exists_children_insertBefore (h : d.WellFormed) (hne : target ≠ id)
    (hparent : d.parent target = some top) :
    ∃ front back, (d.children top).erase id = front ++ target :: back ∧
      (d.insertBefore id target).2.children top = front ++ id :: target :: back := by
  have hnodup : ((d.children top).erase id).Nodup := (h.nodup_children top).erase id
  have hmem : target ∈ (d.children top).erase id :=
    (List.mem_erase_of_ne hne).2 (h.mem_of_parent hparent)
  obtain ⟨front, back, hlist⟩ := List.append_of_mem hmem
  have hfront : target ∉ front := by
    rw [hlist] at hnodup
    exact fun hfront => (List.nodup_append'.1 hnodup).2.2 hfront List.mem_cons_self
  refine ⟨front, back, hlist, ?_⟩
  rw [h.children_insertBefore hne hparent, if_pos rfl, h.filter_ne_eq_erase, hlist,
    placeBefore_append hfront]

lemma insertBefore_iff (h : d.WellFormed) (hne : target ≠ id) :
    (d.insertBefore id target).1 = true ↔ ∃ top, d.parent target = some top := by
  cases hparent : d.parent target with
  | none => simp [insertBefore_eq_remove (.inr hparent)]
  | some top => simp [h.insertBefore_eq hne hparent]

/-- A node that is put behind the children of another or before another one leaves its list and
comes into the other list at that place, and nothing else changes.  Where there is no list to come
into, the node is detached. -/
theorem move_exact (h : d.WellFormed) (hid : id < d.size) (htarget : target < d.size)
    (hne : target ≠ id) (hapart : target ∉ d.descendants id) :
    ((d.appendChild target id).WellFormed ∧
      Reparented d (d.appendChild target id) id (some target) ∧
      (d.appendChild target id).children target = (d.children target).erase id ++ [id]) ∧
    (d.insertBefore id target).2.WellFormed ∧
    ((d.insertBefore id target).1 = true ↔ ∃ top, d.parent target = some top) ∧
    Reparented d (d.insertBefore id target).2 id (d.parent target) ∧
    ∀ top, d.parent target = some top →
      ∃ front back, (d.children top).erase id = front ++ target :: back ∧
        (d.insertBefore id target).2.children top = front ++ id :: target :: back := by
  have hbelow : ¬ d.Below id target := mt h.mem_descendants.2 hapart
  have hlast :
      (d.appendChild target id).children target = (d.children target).erase id ++ [id] := by
    rw [h.children_appendChild htarget, if_pos rfl, h.filter_ne_eq_erase]
  exact ⟨⟨h.appendChild htarget hid hne hbelow, h.reparented_appendChild hid htarget, hlast⟩,
    h.insertBefore hid hbelow, h.insertBefore_iff hne, h.reparented_insertBefore hid hne,
    fun _ hparent => h.exists_children_insertBefore hne hparent⟩

/-- The last of three siblings goes before the second. -/
theorem move_exact_siblings : ∃ d, Markup.parse "<r><a/><b/><c/></r>" = .ok d ∧ d.WellFormed ∧
    4 < d.size ∧ 3 < d.size ∧ (3 : NodeId) ≠ 4 ∧ 3 ∉ d.descendants 4 ∧
    Reparented d (d.insertBefore 4 3).2 4 (some 1) ∧ d.children 1 = [2, 3, 4] ∧
    (d.insertBefore 4 3).2.children 1 = [2, 4, 3] := by
  obtain ⟨d, hparse, hsize, hparent, hapart, hold, hnew⟩ :
      ∃ d, Markup.parse "<r><a/><b/><c/></r>" = .ok d ∧ 4 < d.size ∧ d.parent 3 = some 1 ∧
        3 ∉ d.descendants 4 ∧ d.children 1 = [2, 3, 4] ∧
        (d.insertBefore 4 3).2.children 1 = [2, 4, 3] := by
    exact ⟨_, rfl, by decide +kernel⟩
  have hd := Markup.wellFormed_of_parse hparse
  have hsize' : 3 < d.size := Nat.lt_of_succ_lt hsize
  obtain ⟨-, -, -, hmoved, -⟩ := move_exact hd hsize hsize' (by decide) hapart
  rw [hparent] at hmoved
  exact ⟨d, hparse, hd, hsize, hsize', by decide, hapart, hmoved, hold, hnew⟩

end WellFormed

end WordFields.Document
