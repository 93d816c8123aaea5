import Mathlib.Data.List.Forall2
import WordFields.Proofs.Word.Run
import WordFields.Word.Locator

/-!
# Documents with the same fields

The fields of a document are found by going from element to element, and only their names, their
marks and the instructions are looked at.  `Document.Alike` says of a relation between the nodes of
two documents that it goes along with these ways.  Nodes that are related then have related marks
and related results (`Alike.locateTriad`, `Alike.resultText?`), whatever else the two documents hold.
-/

namespace WordFields

/-! ## Lists of related members -/

section

variable {α β γ δ : Type} {R : α → β → Prop} {S : γ → δ → Prop} {items : List α}
  {items' : List β}

lemma rel_head? (h : List.Forall₂ R items items') : Option.Rel R items.head? items'.head? := by
  cases h with
  | nil => exact .none
  | cons head _ => exact .some head

lemma rel_isEmpty (h : List.Forall₂ R items items') : items'.isEmpty = items.isEmpty := by
  cases h <;> rfl

lemma flatMap_eq_of_rel {f : α → List γ} {f' : β → List γ}
    (h : List.Forall₂ (fun a b => f' b = f a) items items') :
    items'.flatMap f' = items.flatMap f := by
  induction h with
  | nil => rfl
  | cons head _ ih => rw [List.flatMap_cons, List.flatMap_cons, head, ih]

lemma filterMap_eq_of_rel {f : α → Option γ} {f' : β → Option γ}
    (h : List.Forall₂ (fun a b => f' b = f a) items items') :
    items'.filterMap f' = items.filterMap f := by
  induction h with
  | nil => rfl
  | cons head _ ih => rw [List.filterMap_cons, List.filterMap_cons, head, ih]

lemma rel_mem (h : List.Forall₂ R items items') :
    List.Forall₂ (fun a b => a ∈ items ∧ b ∈ items' ∧ R a b) items items' := by
  refine List.forall₂_iff_get.2 ⟨h.length_eq, fun i hi hi' => ?_⟩
  exact ⟨List.get_mem _ _, List.get_mem _ _, h.get hi hi'⟩

lemma exists_rel_of_mem (h : List.Forall₂ R items items') {b : β} (hb : b ∈ items') :
    ∃ a ∈ items, R a b := by
  obtain ⟨i, hi, rfl⟩ := List.getElem_of_mem hb
  have hi' : i < items.length := h.length_eq ▸ hi
  exact ⟨items[i], List.getElem_mem hi', h.get hi' hi⟩

lemma rel_getElem? (h : List.Forall₂ R items items') (index : Nat) :
    Option.Rel R items[index]? items'[index]? := by
  induction h generalizing index with
  | nil => exact .none
  | @cons a b items items' head _ ih =>
    cases index with
    | zero => exact .some head
    | succ index => exact ih index

lemma rel_idxOf? [BEq α] [LawfulBEq α] [BEq β] [LawfulBEq β] (hunique : Relator.BiUnique R)
    (h : List.Forall₂ R items items') {a : α} {b : β} (hab : R a b) :
    items'.idxOf? b = items.idxOf? a := by
  induction h with
  | nil => rfl
  | @cons c c' items items' head _ ih =>
    have hsame : (c' == b) = (c == a) := by
      rw [Bool.eq_iff_iff, beq_iff_eq, beq_iff_eq]
      exact (Relator.rel_eq hunique head hab).symm
    rw [List.idxOf?_cons, List.idxOf?_cons, hsame, ih]

lemma rel_split {before after : List α} {a : α} (h : List.Forall₂ R (before ++ a :: after) items') :
    ∃ before' b after', items' = before' ++ b :: after' ∧ List.Forall₂ R before before' ∧ R a b ∧
      List.Forall₂ R after after' := by
  induction before generalizing items' with
  | nil =>
    obtain ⟨b, after', hb, hafter, rfl⟩ := List.forall₂_cons_left_iff.1 h
    exact ⟨[], b, after', rfl, .nil, hb, hafter⟩
  | cons c before ih =>
    obtain ⟨c', rest, hc, hrest, rfl⟩ := List.forall₂_cons_left_iff.1 h
    obtain ⟨before', b, after', rfl, hbefore, hb, hafter⟩ := ih hrest
    exact ⟨c' :: before', b, after', rfl, .cons hc hbefore, hb, hafter⟩

lemma rel_findSome? (h : List.Forall₂ R items items') {f : α → Option γ} {f' : β → Option δ}
    (hf : ∀ a b, R a b → Option.Rel S (f a) (f' b)) :
    Option.Rel S (items.findSome? f) (items'.findSome? f') := by
  induction h with
  | nil => exact .none
  | @cons a b items items' head _ ih =>
    rw [List.findSome?_cons, List.findSome?_cons]
    have hhead := hf a b head
    generalize f a = found at hhead ⊢
    generalize f' b = found' at hhead ⊢
    cases hhead with
    | some hfound => exact .some hfound
    | none => exact ih

lemma rel_takeWhile (h : List.Forall₂ R items items') {p : α → Bool} {p' : β → Bool}
    (hp : ∀ a b, R a b → p' b = p a) :
    List.Forall₂ R (items.takeWhile p) (items'.takeWhile p') := by
  induction h with
  | nil => exact .nil
  | @cons a b items items' head _ ih =>
    rw [List.takeWhile_cons, List.takeWhile_cons, hp a b head]
    split
    · exact .cons head ih
    · exact .nil

lemma rel_filter_of_eq (h : List.Forall₂ R items items') {p : α → Bool} {p' : β → Bool}
    (hp : ∀ a b, R a b → p' b = p a) : List.Forall₂ R (items.filter p) (items'.filter p') :=
  List.rel_filter (fun a b hab => show p a = true ↔ p' b = true by rw [hp a b hab]) h

lemma rel_iff {a : Option α} {b : Option β} :
    Option.Rel R a b ↔
      (a = none ∧ b = none) ∨ ∃ x y, a = some x ∧ b = some y ∧ R x y := by
  constructor
  · intro h
    cases h with
    | some hxy => exact .inr ⟨_, _, rfl, rfl, hxy⟩
    | none => exact .inl ⟨rfl, rfl⟩
  · rintro (⟨rfl, rfl⟩ | ⟨x, y, rfl, rfl, hxy⟩)
    · exact .none
    · exact .some hxy

lemma rel_self {R : α → α → Prop} (hself : ∀ a, R a a) (a : Option α) : Option.Rel R a a := by
  cases a with
  | none => exact .none
  | some a => exact .some (hself a)

end

namespace Document

variable {d d' : Document} {R : NodeId → NodeId → Prop}

lemma isElement_of_isWord {x : NodeId} {localName : String} (h : d.isWord x localName = true) :
    d.isElement x = true := by
  unfold isWord isElementIn element? at h
  rw [isElement, NodeKind.isElement]
  cases hkind : (d.kind x).element? with
  | none => simp [hkind] at h
  | some e => rfl

lemma isWord_of_locateNext? {x found : NodeId} {mark : FieldMark}
    (h : d.locateNext? x mark = some found) : d.isWord found "fldChar" = true := by
  unfold locateNext? at h
  split at h
  next =>
    obtain ⟨container, -, hfound⟩ := List.exists_of_findSome?_eq_some h
    exact (List.mem_filter.1 (List.mem_of_find?_eq_some hfound)).2
  next => cases h

lemma isElement_of_locateNext? {x found : NodeId} {mark : FieldMark}
    (h : d.locateNext? x mark = some found) : d.isElement found = true :=
  isElement_of_isWord (isWord_of_locateNext? h)

/-- A relation between the nodes of two documents that goes along with the ways on which fields are
found: down to the elements below a node, from an element to its parent, and beside the parent. -/
structure Alike (d d' : Document) (R : NodeId → NodeId → Prop) : Prop where
  biUnique : Relator.BiUnique R
  root : R root root
  isWord_eq : ∀ {x x'}, R x x' → ∀ localName, d'.isWord x' localName = d.isWord x localName
  fieldMark?_eq : ∀ {x x'}, R x x' → d'.fieldMark? x' = d.fieldMark? x
  textContent_eq : ∀ {x x'}, R x x' → d.isWord x "instrText" = true →
    d'.textContent x' = d.textContent x
  elements : ∀ {x x'}, R x x' →
    List.Forall₂ R ((d.descendants x).filter d.isElement) ((d'.descendants x').filter d'.isElement)
  parent : ∀ {x x'}, R x x' → d.isElement x = true → Option.Rel R (d.parent x) (d'.parent x')
  following : ∀ {x x'}, R x x' → ∀ child, d.parent child = some x → d.isElement child = true →
    List.Forall₂ R (d.followingElements x) (d'.followingElements x')
  preceding : ∀ {x x'}, R x x' → ∀ child, d.parent child = some x → d.isElement child = true →
    List.Forall₂ R (d.precedingElements x) (d'.precedingElements x')

namespace Alike

variable {x x' : NodeId}

lemma wordDescendants (h : Alike d d' R) (hx : R x x') (localName : String) :
    List.Forall₂ R (d.wordDescendants x localName) (d'.wordDescendants x' localName) := by
  have hfilter : ∀ (d : Document) (x : NodeId), d.wordDescendants x localName =
      ((d.descendants x).filter d.isElement).filter fun n => d.isWord n localName := by
    intro d x
    rw [Document.wordDescendants, descendantsIn, List.filter_filter]
    refine List.filter_congr fun n _ => ?_
    show d.isWord n localName = (d.isWord n localName && d.isElement n)
    cases hword : d.isWord n localName with
    | false => rfl
    | true => exact (isElement_of_isWord hword).symm
  rw [hfilter, hfilter]
  exact rel_filter_of_eq (h.elements hx) fun n n' hn => h.isWord_eq hn localName

lemma firstWordDescendant? (h : Alike d d' R) (hx : R x x') (localName : String) :
    Option.Rel R (d.firstWordDescendant? x localName) (d'.firstWordDescendant? x' localName) := by
  rw [firstWordDescendant?_eq_head?, firstWordDescendant?_eq_head?]
  exact rel_head? (h.wordDescendants hx localName)

lemma markIn? (h : Alike d d' R) (hx : R x x') (mark : FieldMark) :
    Option.Rel R (d.markIn? mark x) (d'.markIn? mark x') := by
  rw [Document.markIn?, Document.markIn?, ← List.head?_filter, ← List.head?_filter]
  refine rel_head? (rel_filter_of_eq (h.wordDescendants hx "fldChar") fun n n' hn => ?_)
  rw [h.fieldMark?_eq hn]

lemma locatePrevious? (h : Alike d d' R) (hx : R x x') (helement : d.isElement x = true)
    (mark : FieldMark) :
    Option.Rel R (d.locatePrevious? x mark) (d'.locatePrevious? x' mark) := by
  unfold Document.locatePrevious?
  rcases rel_iff.1 (h.parent hx helement) with ⟨hnone, hnone'⟩ | ⟨top, top', htop, htop', hrel⟩
  · rw [hnone, hnone']
    exact .none
  · rw [htop, htop']
    exact rel_findSome? (.cons hrel (h.preceding hrel x htop helement)) fun n n' hn =>
      h.markIn? hn mark

lemma locateNext? (h : Alike d d' R) (hx : R x x') (helement : d.isElement x = true)
    (mark : FieldMark) : Option.Rel R (d.locateNext? x mark) (d'.locateNext? x' mark) := by
  unfold Document.locateNext?
  rcases rel_iff.1 (h.parent hx helement) with ⟨hnone, hnone'⟩ | ⟨top, top', htop, htop', hrel⟩
  · rw [hnone, hnone']
    exact .none
  · rw [htop, htop']
    exact rel_findSome? (h.following hrel x htop helement) fun n n' hn => h.markIn? hn mark

/-- The marks that are found are related, and the same mark is missing. -/
theorem locateTriad (h : Alike d d' R) (hx : R x x') (helement : d.isElement x = true) :
    (∃ missing, d.locateTriad x = .error missing ∧ d'.locateTriad x' = .error missing) ∨
      ∃ triad triad', d.locateTriad x = .ok triad ∧ d'.locateTriad x' = .ok triad' ∧
        R triad.separator triad'.separator ∧ R triad.ending triad'.ending ∧
        d.isElement triad.separator = true ∧ d.isElement triad.ending = true := by
  unfold Document.locateTriad
  rcases rel_iff.1 (h.locatePrevious? hx helement .beginning) with
    ⟨hnone, hnone'⟩ | ⟨beginning, beginning', hbeginning, hbeginning', -⟩
  · exact .inl ⟨.beginning, by rw [hnone], by rw [hnone']⟩
  rcases rel_iff.1 (h.locateNext? hx helement .separator) with
    ⟨hnone, hnone'⟩ | ⟨separator, separator', hseparator, hseparator', hrel⟩
  · exact .inl ⟨.separator, by rw [hbeginning, hnone], by rw [hbeginning', hnone']⟩
  have hisElement := isElement_of_locateNext? hseparator
  rcases rel_iff.1 (h.locateNext? hrel hisElement .ending) with
    ⟨hnone, hnone'⟩ | ⟨ending, ending', hending, hending', hrel'⟩
  · exact .inl ⟨.ending, by rw [hbeginning, hseparator]; simp only [hnone],
      by rw [hbeginning', hseparator']; simp only [hnone']⟩
  · exact .inr ⟨⟨beginning, separator, ending⟩, ⟨beginning', separator', ending'⟩,
      by rw [hbeginning, hseparator]; simp only [hending],
      by rw [hbeginning', hseparator']; simp only [hending'],
      hrel, hrel', hisElement, isElement_of_locateNext? hending⟩

/-- The text elements that are found between related marks are related. -/
theorem resultText? (h : Alike d d' R) {triad triad' : FieldTriad}
    (hseparator : R triad.separator triad'.separator) (hending : R triad.ending triad'.ending)
    (helement : d.isElement triad.separator = true)
    (helement' : d.isElement triad.ending = true) :
    Option.Rel R (d.resultText? triad) (d'.resultText? triad') := by
  unfold Document.resultText?
  rcases rel_iff.1 (h.parent hseparator helement) with
    ⟨hnone, hnone'⟩ | ⟨top, top', htop, htop', hrel⟩
  · rw [hnone, hnone']
    exact .none
  · rw [htop, htop']
    refine rel_findSome? (rel_takeWhile (h.following hrel _ htop helement) fun n n' hn => ?_)
      fun n n' hn => h.firstWordDescendant? hn "t"
    rcases rel_iff.1 (h.parent hending helement') with
      ⟨hnone, hnone'⟩ | ⟨last, last', hlast, hlast', hlastRel⟩
    · rw [hnone, hnone']
      rfl
    · have hsame : n = last ↔ n' = last' := Relator.rel_eq h.biUnique hn hlastRel
      rw [hlast, hlast', Bool.eq_iff_iff, bne_iff_ne, bne_iff_ne, ne_eq, ne_eq, Option.some.injEq,
        Option.some.injEq, hsame]

end Alike

end Document

end WordFields
