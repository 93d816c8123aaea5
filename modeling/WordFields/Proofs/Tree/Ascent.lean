import Mathlib.Logic.Function.Iterate
import WordFields.Proofs.Tree.WellFormed

/-!
# The way up

The chain of parents above a node is followed under a bound on its length, too.  It is no longer
than the level of the node, which the size of the store bounds, so in a well-formed document the
bound is never reached: the chain ends (`WellFormed.iterate_parent_eq_none`), a node is attached
exactly if it is the document node or below it (`WellFormed.isAttached_iff`), and the nearest node
with some property is found wherever it is (`WellFormed.nearest?_eq_some_iff`).
-/

namespace WordFields.Document

variable {d d' : Document}

/-- Something is above a node exactly if it is the parent or above the parent. -/
lemma below_iff_of_parent {id top parent : NodeId} (hparent : d.parent id = some parent) :
    d.Below top id ↔ top = parent ∨ d.Below top parent := by
  constructor
  · exact fun hbelow => hbelow.of_parent hparent
  · rintro (rfl | hbelow)
    · exact below_of_parent hparent
    · exact hbelow.trans (below_of_parent hparent)

lemma not_below_of_parent_none {id top : NodeId} (hparent : d.parent id = none) :
    ¬ d.Below top id := by
  intro hbelow
  obtain ⟨parent, hstep, -⟩ := Relation.TransGen.head'_iff.1 hbelow
  rw [hparent] at hstep
  cases hstep

namespace WellFormed

lemma level_lt_of_parent (h : d.WellFormed) {id top : NodeId} (htop : d.parent id = some top) :
    d.level top < d.level id :=
  h.level_lt_of_mem (h.mem_of_parent htop)

lemma parent_eq_none_of_level (h : d.WellFormed) {id : NodeId} (hlevel : d.level id = 0) :
    d.parent id = none := by
  by_contra hsome
  obtain ⟨top, htop⟩ := Option.ne_none_iff_exists'.1 hsome
  have hlt := h.level_lt_of_parent htop
  omega

/-- The chain of parents above a node ends. -/
theorem iterate_parent_eq_none (h : d.WellFormed) {id : NodeId} {steps : Nat}
    (hsteps : d.level id < steps) :
    (fun above => above.bind d.parent)^[steps] (some id) = none := by
  induction steps generalizing id with
  | zero => exact absurd hsteps (Nat.not_lt_zero _)
  | succ steps ih =>
    rw [Function.iterate_succ_apply, Option.bind_some]
    cases hparent : d.parent id with
    | none => exact Function.iterate_fixed rfl steps
    | some top =>
      have hlt := h.level_lt_of_parent hparent
      exact ih (by omega)

/-! ## Attached nodes -/

lemma climbs_iff (h : d.WellFormed) {id : NodeId} {steps : Nat} (hsteps : d.level id ≤ steps) :
    d.climbs steps id = true ↔ id = root ∨ d.Below root id := by
  induction steps generalizing id with
  | zero =>
    have hnot : ¬ d.Below root id :=
      not_below_of_parent_none (h.parent_eq_none_of_level (Nat.le_zero.1 hsteps))
    simp [climbs, hnot]
  | succ steps ih =>
    by_cases hid : id = root
    · simp [climbs, hid]
    · rw [climbs, if_neg hid]
      cases hparent : d.parent id with
      | none => simp [hid, not_below_of_parent_none hparent]
      | some top =>
        have hlt := h.level_lt_of_parent hparent
        have hmem : (d.children top).contains id = true :=
          List.contains_iff_mem.2 (h.mem_of_parent hparent)
        simp only [hmem, Bool.true_and]
        rw [ih (by omega), below_iff_of_parent hparent, or_iff_right hid, eq_comm]

theorem isAttached_iff (h : d.WellFormed) {id : NodeId} :
    d.isAttached id = true ↔ id = root ∨ id ∈ d.descendants root := by
  rw [isAttached, h.climbs_iff (d.level_le_size id), h.mem_descendants]

end WellFormed

/-! ## The nearest node of some kind -/

/-- The nearest node of some kind on the way up is the same in documents where the way up is. -/
lemma nearest?_congr (hd : d.WellFormed) {test test' : NodeId → Bool} {x : NodeId}
    (htest : ∀ y, y = x ∨ d.Below y x → test' y = test y)
    (hparent : ∀ y, y = x ∨ d.Below y x → d'.parent y = d.parent y) {steps steps' : Nat}
    (hsteps : d.level x ≤ steps) (hsteps' : d.level x ≤ steps') :
    d'.nearest? test' steps' x = d.nearest? test steps x := by
  induction steps generalizing x steps' with
  | zero =>
    have hnone := hd.parent_eq_none_of_level (Nat.le_zero.1 hsteps)
    cases steps' <;> simp only [nearest?, htest x (.inl rfl), hparent x (.inl rfl), hnone]
  | succ steps ih =>
    cases hnone : d.parent x with
    | none =>
      cases steps' <;> simp only [nearest?, htest x (.inl rfl), hparent x (.inl rfl), hnone]
    | some top =>
      have hlt := hd.level_lt_of_parent hnone
      obtain ⟨steps', rfl⟩ : ∃ n, steps' = n + 1 := ⟨steps' - 1, by omega⟩
      have hup : ∀ y, y = top ∨ d.Below y top → d.Below y x := fun y =>
        (below_iff_of_parent hnone).2
      simp only [nearest?, htest x (.inl rfl), hparent x (.inl rfl), hnone]
      rw [ih (fun y hy => htest y (.inr (hup y hy))) (fun y hy => hparent y (.inr (hup y hy)))
        (by omega) (by omega)]

namespace WellFormed

variable {test : NodeId → Bool}

/-- The nearest node with some property is the node itself or the nearest one above it. -/
lemma nearest?_eq (h : d.WellFormed) (test : NodeId → Bool) (id : NodeId) :
    d.nearest? test d.size id =
      if test id then some id else (d.parent id).bind (d.nearest? test d.size) := by
  have hlevel := d.level_le_size id
  have hmore : d.nearest? test (d.size + 1) id = d.nearest? test d.size id :=
    nearest?_congr h (fun _ _ => rfl) (fun _ _ => rfl) hlevel (Nat.le_succ_of_le hlevel)
  rw [← hmore, nearest?]
  cases d.parent id <;> rfl

theorem nearest?_eq_some_iff (h : d.WellFormed) {id found : NodeId} :
    d.nearest? test d.size id = some found ↔
      (found = id ∨ d.Below found id) ∧ test found = true ∧
        ∀ y, y = id ∨ d.Below y id → d.Below found y → test y = false := by
  induction hlevel : d.level id using Nat.strong_induction_on generalizing id with
  | _ level ih =>
    rw [h.nearest?_eq]
    split
    next htest =>
      constructor
      · rintro ⟨⟩
        refine ⟨.inl rfl, htest, fun y hy hbelow => ?_⟩
        rcases hy with rfl | hy
        · exact absurd hbelow (h.acyclic y)
        · exact absurd (hbelow.trans hy) (h.acyclic _)
      · rintro ⟨rfl | hbelow, -, hbetween⟩
        · rfl
        · rw [hbetween id (.inl rfl) hbelow] at htest
          cases htest
    next htest =>
      cases hparent : d.parent id with
      | none =>
        rw [Option.bind_none]
        refine iff_of_false (Option.some_ne_none found).symm ?_
        rintro ⟨rfl | hbelow, hfound, -⟩
        · exact htest hfound
        · exact not_below_of_parent_none hparent hbelow
      | some top =>
        have hlt := h.level_lt_of_parent hparent
        rw [Option.bind_some, ih _ (hlevel ▸ hlt) rfl, ← below_iff_of_parent hparent]
        constructor
        · rintro ⟨hbelow, hfound, hbetween⟩
          refine ⟨.inr hbelow, hfound, fun y hy hfy => ?_⟩
          rcases hy with rfl | hy
          · exact Bool.eq_false_iff.2 htest
          · exact hbetween y ((below_iff_of_parent hparent).1 hy) hfy
        · rintro ⟨rfl | hbelow, hfound, hbetween⟩
          · exact absurd hfound htest
          · exact ⟨hbelow, hfound, fun y hy =>
              hbetween y (.inr ((below_iff_of_parent hparent).2 hy))⟩

end WellFormed

end WordFields.Document
