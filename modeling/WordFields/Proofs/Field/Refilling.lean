import WordFields.Proofs.Field.Mirroring
import WordFields.Proofs.Field.Substitution

/-!
# Substituting in documents that differ in some texts

A substitution clears a text element, puts a text into it, records a path and adds a comment.  If
this is done to related elements of documents that mirror each other, with texts that have no
marker, the documents go on to mirror each other, and the element is veiled from then on
(`Paired.substitute`).  The two texts may differ; if one of them is empty and the other one is not,
the relation is not strict.

New nodes take the next free handles, which need not be the same in the two documents.  A relation
grows by pairs of new nodes (`Paired.extend`) and goes on to relate every node of the document that
both came from to itself (`Paired.kept`).
-/

namespace WordFields

/-- Options that substitute alike but for the texts of their placeholders, which have no marker.  If
this is strict, either both of them are empty or none of them is. -/
structure Options.SameMerge (options options' : Options) (strict : Prop) : Prop where
  mergeComments_eq : options'.mergeComments = options.mergeComments
  unmarked : Marker.occursIn options.placeholder.toList = false
  unmarked' : Marker.occursIn options'.placeholder.toList = false
  isEmpty_eq : strict → options'.placeholder.isEmpty = options.placeholder.isEmpty

namespace Document

variable {d d' e e' : Document} {T U : NodeId → NodeId → Prop} {veiled veiled' : NodeId → Prop}
  {strict : Prop} {x x' top top' : NodeId}

/-! ## Clearing an element -/

lemma Unmarked.congr (h : d.Unmarked x) (hkind : e.kind x = d.kind x) : e.Unmarked x := by
  rwa [Unmarked, hkind]

lemma WellFormed.parent_of_parent_clearChildren (hd : d.WellFormed) {id : NodeId}
    (h : (d.clearChildren id).parent x = some top) : top ≠ id ∧ d.parent x = some top := by
  rw [hd.parent_clearChildren] at h
  split at h
  · cases h
  next hnot => exact ⟨fun heq => hnot (hd.mem_of_parent (heq ▸ h)), h⟩

lemma HoldsUnmarked.clearChildren (h : d.HoldsUnmarked x) (id : NodeId) :
    (d.clearChildren id).HoldsUnmarked x := by
  intro child hchild
  rw [children_clearChildren] at hchild
  split at hchild
  · cases hchild
  · obtain ⟨hunmarked, hleaf⟩ := h child hchild
    refine ⟨hunmarked.congr (kind_clearChildren d id child), ?_⟩
    rw [children_clearChildren, hleaf, ite_self]

lemma isWord_setAttribute {e : Element} (hkind : d.kind x = .element e) (name value : String)
    (y : NodeId) (localName : String) :
    (d.setAttribute x name value).isWord y localName = d.isWord y localName := by
  have hnew := kind_setAttribute hkind name value y
  by_cases heq : y = x
  · subst heq
    rw [if_pos rfl] at hnew
    simp [isWord, isElementIn, element?, hnew, hkind, NodeKind.element?, Element.isNamed]
  · rw [if_neg heq] at hnew
    exact isWord_congr hnew localName

lemma Unmarked.setAttribute {e : Element} (h : d.Unmarked x) {y : NodeId}
    (hkind : d.kind y = .element e) (name value : String) :
    (d.setAttribute y name value).Unmarked x := by
  refine h.congr ?_
  rw [kind_setAttribute hkind, if_neg]
  rintro rfl
  obtain ⟨text, htext, -⟩ := h
  rw [hkind] at htext
  cases htext

namespace Mirrors

/-- A node is a child of another as its counterpart is one of the other's counterpart. -/
lemma mem_children_iff (h : Mirrors d d' T veiled strict) (htop : T top top') (hx : T x x') :
    x ∈ d.children top ↔ x' ∈ d'.children top' := by
  constructor
  · intro hmem
    obtain ⟨y', hy', hrel⟩ := h.exists_parent hx (h.wellFormed.parent_of_mem hmem)
    obtain rfl := h.biUnique.2 htop hrel
    exact h.wellFormed'.mem_of_parent hy'
  · intro hmem
    obtain ⟨y, hy, hrel⟩ := h.exists_parent' hx (h.wellFormed'.parent_of_mem hmem)
    obtain rfl := h.biUnique.1 htop hrel
    exact h.wellFormed.mem_of_parent hy

/-- Related elements may be cleared, and it is free to say whether they are veiled then. -/
lemma clearChildren (h : Mirrors d d' T veiled strict) (hx : T x x')
    (hother : ∀ y, y ≠ x → (veiled' y ↔ veiled y))
    (hword : veiled' x → d.isWord x "t" = true)
    (hinstruction : veiled' x → ∀ {instruction}, d.isWord instruction "instrText" = true →
      ¬ d.Below instruction x) :
    Mirrors (d.clearChildren x) (d'.clearChildren x') T veiled' strict where
  wellFormed := h.wellFormed.clearChildren x
  wellFormed' := h.wellFormed'.clearChildren x'
  biUnique := h.biUnique
  root := h.root
  isWord_veiled {y} hy := by
    rw [isWord_congr (kind_clearChildren d x y)]
    by_cases heq : y = x
    · subst heq
      exact hword hy
    · exact h.isWord_veiled ((hother y heq).1 hy)
  not_in_instruction {y instruction} hy hinstr hbelow := by
    rw [isWord_congr (kind_clearChildren d x instruction)] at hinstr
    have hold : d.Below instruction y :=
      hbelow.mono fun _ _ hparent => (h.wellFormed.parent_of_parent_clearChildren hparent).2
    by_cases heq : y = x
    · subst heq
      exact hinstruction hy hinstr hold
    · exact h.not_in_instruction ((hother y heq).1 hy) hinstr hold
  parent {y y'} hy := by
    rw [h.wellFormed.parent_clearChildren, h.wellFormed'.parent_clearChildren]
    by_cases hmem : y ∈ d.children x
    · rw [if_pos hmem, if_pos ((h.mem_children_iff hx hy).1 hmem)]
      exact .none
    · rw [if_neg hmem, if_neg (mt (h.mem_children_iff hx hy).2 hmem)]
      exact h.parent hy
  children {y y'} hy hplain := by
    rw [children_clearChildren, children_clearChildren]
    have hsame : y = x ↔ y' = x' := Relator.rel_eq h.biUnique hy hx
    by_cases heq : y = x
    · rw [if_pos heq, if_pos (hsame.1 heq)]
      exact .nil
    · rw [if_neg heq, if_neg (mt hsame.2 heq)]
      exact h.children hy fun hveiled => hplain ((hother y heq).2 hveiled)
  holdsUnmarked {y y'} hy hveiled := by
    by_cases heq : y = x
    · obtain rfl : y' = x' := h.biUnique.2 (heq ▸ hy) hx
      subst heq
      constructor <;> intro child hchild <;> rw [children_clearChildren, if_pos rfl] at hchild <;>
        cases hchild
    · obtain ⟨hholds, hholds'⟩ := h.holdsUnmarked hy ((hother y heq).1 hveiled)
      exact ⟨hholds.clearChildren x, hholds'.clearChildren x'⟩
  kind {y y'} hy := by
    rw [kind_clearChildren, kind_clearChildren]
    refine (h.kind hy).imp_right fun ⟨hloose, hunmarked, hunmarked'⟩ => ⟨fun top htop => ?_,
      hunmarked.congr (kind_clearChildren d x y), hunmarked'.congr (kind_clearChildren d' x' y')⟩
    obtain ⟨hne, hparent⟩ := h.wellFormed.parent_of_parent_clearChildren htop
    exact (hother top hne).2 (hloose top hparent)
  strict_of_veiled hy htop hveiled := by
    obtain ⟨hne, hparent⟩ := h.wellFormed.parent_of_parent_clearChildren htop
    exact h.strict_of_veiled hy hparent ((hother _ hne).1 hveiled)

/-! ## Recording a path -/

/-- The same attribute may be set at related elements. -/
lemma setAttribute (h : Mirrors d d' T veiled strict) (hx : T x x') {localName : String}
    (hword : d.isWord x localName = true) (name value : String) :
    Mirrors (d.setAttribute x name value) (d'.setAttribute x' name value) T veiled strict := by
  obtain ⟨e, hkind⟩ := exists_element_of_isWord hword
  have hkind' : d'.kind x' = .element e := by
    refine ((h.kind hx).resolve_right fun ⟨_, ⟨text, htext, _⟩, _⟩ => ?_).trans hkind
    rw [hkind] at htext
    cases htext
  have hnew := kind_setAttribute hkind name value
  have hnew' := kind_setAttribute hkind' name value
  have hparent := parent_setAttribute d x name value
  have hchildren := children_setAttribute d x name value
  have hchildren' := children_setAttribute d' x' name value
  have hunmarked : ∀ y, d.Unmarked y → (d.setAttribute x name value).Unmarked y :=
    fun y hy => hy.setAttribute hkind name value
  have hunmarked' : ∀ y, d'.Unmarked y → (d'.setAttribute x' name value).Unmarked y :=
    fun y hy => hy.setAttribute hkind' name value
  constructor
  · exact h.wellFormed.setAttribute x name value
  · exact h.wellFormed'.setAttribute x' name value
  · exact h.biUnique
  · exact h.root
  · intro y hy
    rw [isWord_setAttribute hkind]
    exact h.isWord_veiled hy
  · intro y instruction hy hinstruction hbelow
    rw [isWord_setAttribute hkind] at hinstruction
    exact h.not_in_instruction hy hinstruction
      (hbelow.mono fun child parent => (hparent child ▸ ·))
  · intro y y' hy
    rw [hparent, parent_setAttribute]
    exact h.parent hy
  · intro y y' hy hplain
    rw [hchildren, hchildren']
    exact h.children hy hplain
  · intro y y' hy hveiled
    obtain ⟨hholds, hholds'⟩ := h.holdsUnmarked hy hveiled
    constructor <;> intro child hchild
    · rw [hchildren] at hchild ⊢
      exact (hholds child hchild).imp_left (hunmarked child)
    · rw [hchildren'] at hchild ⊢
      exact (hholds' child hchild).imp_left (hunmarked' child)
  · intro y y' hy
    rcases h.kind hy with hsame | ⟨hloose, hy, hy'⟩
    · have hiff : y = x ↔ y' = x' := Relator.rel_eq h.biUnique hy hx
      refine .inl ?_
      rw [hnew, hnew', hsame]
      simp only [hiff]
    · refine .inr ⟨fun top htop => hloose top ?_, hunmarked y hy, hunmarked' y' hy'⟩
      rwa [hparent] at htop
  · intro y y' top hy htop
    rw [hparent] at htop
    exact h.strict_of_veiled hy htop

end Mirrors

/-! ## Adding nodes -/

/-- A document that came from another by adding nodes that are no elements to the children of one
node. -/
structure Extended (d e : Document) (top : NodeId) : Prop where
  wellFormed : e.WellFormed
  size_le : d.size ≤ e.size
  kind_eq : ∀ {x}, x < d.size → e.kind x = d.kind x
  isElement_new : ∀ {x}, d.size ≤ x → e.isElement x = false
  children_eq : ∀ {x}, x ≠ top → e.children x = d.children x
  filter_children : (e.children top).filter (· < d.size) = d.children top

namespace Extended

lemma refl (hd : d.WellFormed) (top : NodeId) : Extended d d top where
  wellFormed := hd
  size_le := Nat.le_refl _
  kind_eq _ := rfl
  isElement_new := isElement_of_size_le
  children_eq _ := rfl
  filter_children :=
    List.filter_eq_self.2 fun _ hchild => decide_eq_true (hd.child_lt_size hchild)

lemma mem_children (h : Extended d e top) (hx : x < d.size) {y : NodeId} :
    x ∈ e.children y ↔ x ∈ d.children y := by
  by_cases hy : y = top
  · rw [hy, ← h.filter_children, List.mem_filter, decide_eq_true_eq, and_iff_left hx]
  · rw [h.children_eq hy]

lemma parent_eq (h : Extended d e top) (hd : d.WellFormed) (hx : x < d.size) :
    e.parent x = d.parent x := by
  ext y
  constructor
  · intro hy
    exact hd.parent_of_mem ((h.mem_children hx).1 (h.wellFormed.mem_of_parent hy))
  · intro hy
    exact h.wellFormed.parent_of_mem ((h.mem_children hx).2 (hd.mem_of_parent hy))

lemma below (h : Extended d e top) (hd : d.WellFormed) {y : NodeId} (hbelow : e.Below y x)
    (hx : x < d.size) : d.Below y x := by
  induction hbelow using Relation.TransGen.head_induction_on with
  | single hparent =>
    rw [h.parent_eq hd hx] at hparent
    exact below_of_parent hparent
  | head hparent _ ih =>
    rw [h.parent_eq hd hx] at hparent
    have habove := lt_size_of_mem_children (hd.mem_of_parent hparent)
    exact (ih habove).trans (below_of_parent hparent)

lemma isWord_eq (h : Extended d e top) (x : NodeId) (localName : String) :
    e.isWord x localName = d.isWord x localName := by
  by_cases hx : x < d.size
  · exact isWord_congr (h.kind_eq hx) localName
  · have hnew := h.isElement_new (Nat.le_of_not_lt hx)
    have hold := isElement_of_size_le (Nat.le_of_not_lt hx)
    cases hword : e.isWord x localName with
    | true => exact absurd (isElement_of_isWord hword) (by simp [hnew])
    | false =>
      cases hword' : d.isWord x localName with
      | true => exact absurd (isElement_of_isWord hword') (by simp [hold])
      | false => rfl

/-- What is in another node stays there, if nothing is added below it. -/
lemma holdsUnmarked (h : Extended d e top) (hd : d.WellFormed) (hx : x ≠ top)
    (hplace : d.parent top ≠ some x) (hholds : d.HoldsUnmarked x) : e.HoldsUnmarked x := by
  intro child hchild
  rw [h.children_eq hx] at hchild
  obtain ⟨hunmarked, hleaf⟩ := hholds child hchild
  refine ⟨hunmarked.congr (h.kind_eq (hd.child_lt_size hchild)), ?_⟩
  rw [h.children_eq, hleaf]
  rintro rfl
  exact hplace (hd.parent_of_mem hchild)

end Extended

lemma extended_appendNew (hd : d.WellFormed) {kind : NodeKind} (htop : top < d.size)
    (hkind : kind.isElement = false) : Extended d (d.appendNew top kind).2 top where
  wellFormed := hd.appendNew htop kind
  size_le := by simp
  kind_eq hx := by rw [kind_appendNew, if_neg (Nat.ne_of_lt hx)]
  isElement_new {x} hx := by
    rw [isElement, kind_appendNew]
    split
    · exact hkind
    · exact isElement_of_size_le hx
  children_eq hx := by rw [hd.children_appendNew htop, if_neg hx, List.append_nil]
  filter_children := by
    rw [hd.children_appendNew htop, if_pos rfl, List.filter_append, List.filter_singleton,
      decide_eq_false (Nat.lt_irrefl _), cond_false, List.append_nil]
    exact (Extended.refl hd top).filter_children

lemma extended_insertNew (hd : d.WellFormed) {kind : NodeKind} (hparent : d.parent x = some top)
    (hkind : kind.isElement = false) : Extended d (d.insertNew x kind) top := by
  obtain ⟨hwell, hsize, hkinds, hchildren⟩ := hd.insertNew_views kind hparent
  constructor
  · exact hwell
  · omega
  · intro y hy
    rw [hkinds, if_neg (Nat.ne_of_lt hy)]
  · intro y hy
    rw [isElement, hkinds]
    split
    · exact hkind
    · exact isElement_of_size_le hy
  · intro y hy
    rw [hchildren, if_neg hy]
  · rw [hchildren, if_pos rfl, filter_placeBefore (decide_eq_false (Nat.lt_irrefl _))]
    exact (Extended.refl hd top).filter_children

/-! ## Two documents in the course of a pass -/

/-- Two documents that mirror each other and came from one with some number of nodes by adding nodes
that are no elements. -/
structure Paired (n : Nat) (d d' : Document) (T : NodeId → NodeId → Prop) (veiled : NodeId → Prop)
    (strict : Prop) : Prop extends Mirrors d d' T veiled strict where
  kept : ∀ {x}, x < n → T x x
  stored : ∀ {x x'}, T x x' → x < d.size ∧ x' < d'.size
  lt_of_isElement : ∀ {x}, d.isElement x = true → x < n

/-- A relation with one more pair. -/
def Joined (T : NodeId → NodeId → Prop) (new new' x x' : NodeId) : Prop :=
  T x x' ∨ x = new ∧ x' = new'

lemma biUnique_joined {new new' : NodeId} (hT : Relator.BiUnique T) (hnew : ∀ x', ¬ T new x')
    (hnew' : ∀ x, ¬ T x new') : Relator.BiUnique (Joined T new new') := by
  constructor
  · rintro x y z (hx | ⟨rfl, rfl⟩) (hy | ⟨rfl, hz⟩)
    · exact hT.1 hx hy
    · exact absurd (hz ▸ hx) (hnew' x)
    · exact absurd hy (hnew' y)
    · rfl
  · rintro x y z (hy | ⟨rfl, rfl⟩) (hz | ⟨hx, rfl⟩)
    · exact hT.2 hy hz
    · exact absurd (hx ▸ hy) (hnew y)
    · exact absurd hz (hnew z)
    · rfl

namespace Paired

variable {n : Nat}

/-- Nodes may be added to related nodes that are not in veiled elements.  Those that are related
from then on are of the same kind, or they are texts without a marker in veiled elements. -/
theorem extend (h : Paired n d d' T veiled strict) (htop : T top top')
    (hplace : ∀ {y}, d.parent top = some y → ¬ veiled y) (he : Extended d e top)
    (he' : Extended d' e' top') (hmono : ∀ {x x'}, T x x' → U x x') (hunique : Relator.BiUnique U)
    (hnew : ∀ {x x'}, U x x' → T x x' ∨ (d.size ≤ x ∧ d'.size ≤ x') ∧
      (x ∈ e.children top ∧ x' ∈ e'.children top') ∧ (veiled top → strict) ∧
        (e'.kind x' = e.kind x ∨ veiled top ∧ e.Unmarked x ∧ e'.Unmarked x'))
    (hchildren : (veiled top → strict) → List.Forall₂ U (e.children top) (e'.children top'))
    (hholds : veiled top → e.HoldsUnmarked top ∧ e'.HoldsUnmarked top') :
    Paired n e e' U veiled strict := by
  have hd := h.wellFormed
  have hd' := h.wellFormed'
  have hveiled : ∀ {y}, veiled y → y < d.size := fun hy =>
    lt_size_of_isElement (isElement_of_isWord (h.isWord_veiled hy))
  have hplace' : ∀ {y y'}, T y y' → d'.parent top' = some y' → ¬ veiled y := by
    intro y y' hy hparent
    refine hplace (hd.parent_of_mem ((h.mem_children_iff hy htop).2 (hd'.mem_of_parent hparent)))
  have hparent : ∀ {x x' y}, T x x' → e.parent x = some y → d.parent x = some y := by
    intro x x' y hx hy
    rwa [he.parent_eq hd (h.stored hx).1] at hy
  constructor
  · constructor
    · exact he.wellFormed
    · exact he'.wellFormed
    · exact hunique
    · exact hmono h.root
    · intro y hy
      rw [he.isWord_eq]
      exact h.isWord_veiled hy
    · intro y instruction hy hinstruction hbelow
      rw [he.isWord_eq] at hinstruction
      exact h.not_in_instruction hy hinstruction (he.below hd hbelow (hveiled hy))
    · intro x x' hx
      rcases hnew hx with hold | ⟨-, ⟨hmem, hmem'⟩, -⟩
      · rw [he.parent_eq hd (h.stored hold).1, he'.parent_eq hd' (h.stored hold).2]
        rcases rel_iff.1 (h.parent hold) with ⟨hnone, hnone'⟩ | ⟨y, y', hy, hy', hrel⟩
        · rw [hnone, hnone']
          exact .none
        · rw [hy, hy']
          exact .some (hmono hrel)
      · rw [he.wellFormed.parent_of_mem hmem, he'.wellFormed.parent_of_mem hmem']
        exact .some (hmono htop)
    · intro x x' hx hplain
      rcases hnew hx with hold | ⟨⟨hge, hge'⟩, -⟩
      · have hsame : x = top ↔ x' = top' := Relator.rel_eq h.biUnique hold htop
        by_cases heq : x = top
        · obtain rfl := hsame.1 heq
          subst heq
          exact hchildren hplain
        · rw [he.children_eq heq, he'.children_eq (mt hsame.2 heq)]
          exact (h.children hold hplain).imp fun _ _ => hmono
      · have hlt := (h.stored htop).1.trans_le hge
        have hlt' := (h.stored htop).2.trans_le hge'
        rw [he.children_eq hlt.ne', he'.children_eq hlt'.ne', children_of_size_le hge,
          children_of_size_le hge']
        exact .nil
    · intro x x' hx hv
      have hold : T x x' := (hnew hx).resolve_right fun hfresh =>
        absurd (hveiled hv) (Nat.not_lt.2 hfresh.1.1)
      have hsame : x = top ↔ x' = top' := Relator.rel_eq h.biUnique hold htop
      by_cases heq : x = top
      · obtain rfl := hsame.1 heq
        subst heq
        exact hholds hv
      · obtain ⟨hx, hx'⟩ := h.holdsUnmarked hold hv
        exact ⟨he.holdsUnmarked hd heq (fun hparent => hplace hparent hv) hx,
          he'.holdsUnmarked hd' (mt hsame.2 heq) (fun hparent => hplace' hold hparent hv) hx'⟩
    · intro x x' hx
      rcases hnew hx with hold | ⟨-, ⟨hmem, -⟩, -, hkind⟩
      · rw [he.kind_eq (h.stored hold).1, he'.kind_eq (h.stored hold).2]
        refine (h.kind hold).imp_right fun ⟨hloose, hunmarked, hunmarked'⟩ => ⟨?_, ?_, ?_⟩
        · exact fun y hy => hloose y (hparent hold hy)
        · exact hunmarked.congr (he.kind_eq (h.stored hold).1)
        · exact hunmarked'.congr (he'.kind_eq (h.stored hold).2)
      · refine hkind.imp_right fun ⟨hv, hunmarked, hunmarked'⟩ => ⟨fun y hy => ?_, hunmarked,
          hunmarked'⟩
        obtain rfl : top = y := Option.some.inj ((he.wellFormed.parent_of_mem hmem).symm.trans hy)
        exact hv
    · intro x x' y hx hy hv
      rcases hnew hx with hold | ⟨-, ⟨hmem, -⟩, hstrict, -⟩
      · exact h.strict_of_veiled hold (hparent hold hy) hv
      · obtain rfl : top = y := Option.some.inj ((he.wellFormed.parent_of_mem hmem).symm.trans hy)
        exact hstrict hv
  · exact fun hx => hmono (h.kept hx)
  · intro x x' hx
    rcases hnew hx with hold | ⟨-, ⟨hmem, hmem'⟩, -⟩
    · exact ⟨(h.stored hold).1.trans_le he.size_le, (h.stored hold).2.trans_le he'.size_le⟩
    · exact ⟨he.wellFormed.child_lt_size hmem, he'.wellFormed.child_lt_size hmem'⟩
  · intro x hx
    have hlt : x < d.size := by
      by_contra hge
      rw [he.isElement_new (Nat.le_of_not_lt hge)] at hx
      cases hx
    rw [isElement, he.kind_eq hlt] at hx
    exact h.lt_of_isElement hx

/-- A new node may be added to each of two related nodes, at the same place. -/
lemma extend_joined (h : Paired n d d' T veiled strict) (htop : T top top')
    (hplace : ∀ {y}, d.parent top = some y → ¬ veiled y) (he : Extended d e top)
    (he' : Extended d' e' top') (hmem : d.size ∈ e.children top)
    (hmem' : d'.size ∈ e'.children top')
    (hstrict : veiled top → strict)
    (hkind : e'.kind d'.size = e.kind d.size ∨
      veiled top ∧ e.Unmarked d.size ∧ e'.Unmarked d'.size)
    (hchildren : List.Forall₂ (Joined T d.size d'.size) (e.children top) (e'.children top'))
    (hholds : veiled top → e.HoldsUnmarked top ∧ e'.HoldsUnmarked top') :
    Paired n e e' (Joined T d.size d'.size) veiled strict := by
  refine h.extend htop hplace he he' .inl ?_ ?_ (fun _ => hchildren) hholds
  · exact biUnique_joined h.biUnique (fun _ hx => (h.stored hx).1.ne rfl)
      fun _ hx => (h.stored hx).2.ne rfl
  · rintro x x' (hx | ⟨rfl, rfl⟩)
    · exact .inl hx
    · exact .inr ⟨⟨Nat.le_refl _, Nat.le_refl _⟩, ⟨hmem, hmem'⟩, hstrict, hkind⟩

/-! ### Filling an element -/

end Paired

/-- Puts a text into an element, unless it is empty. -/
def fill (d : Document) (x : NodeId) (text : String) : Document :=
  if text.isEmpty then d else (d.appendNew x (.text text)).2

lemma setTextContent_eq_fill (d : Document) (x : NodeId) (text : String) :
    d.setTextContent x text = (d.clearChildren x).fill x text :=
  rfl

lemma extended_fill (hd : d.WellFormed) (hx : x < d.size) (text : String) :
    Extended d (d.fill x text) x := by
  rw [fill]
  split
  · exact .refl hd x
  · exact extended_appendNew hd hx rfl

/-- An empty element that is filled holds the text only. -/
lemma holdsUnmarked_fill (hd : d.WellFormed) (hx : x < d.size) (hempty : d.children x = [])
    {text : String} (hunmarked : Marker.occursIn text.toList = false) :
    (d.fill x text).HoldsUnmarked x := by
  intro child hchild
  rw [fill] at hchild ⊢
  split at hchild
  · rw [hempty] at hchild
    cases hchild
  next hne =>
    rw [hd.children_appendNew hx, hempty, if_pos rfl, List.nil_append, List.mem_singleton] at hchild
    subst hchild
    rw [if_neg hne]
    refine ⟨⟨text, by rw [kind_appendNew, if_pos rfl], hunmarked⟩, ?_⟩
    rw [hd.children_appendNew hx, children_of_size_le (Nat.le_refl _), if_neg hx.ne',
      List.append_nil]

namespace Paired

variable {n : Nat}

/-- Veiled elements may be filled with texts without a marker. -/
lemma fill (h : Paired n d d' T veiled strict) (hx : T x x') (hveiled : veiled x)
    (hempty : d.children x = []) (hempty' : d'.children x' = []) {text text' : String}
    (hunmarked : Marker.occursIn text.toList = false)
    (hunmarked' : Marker.occursIn text'.toList = false)
    (hstrict : strict → text'.isEmpty = text.isEmpty) :
    ∃ U, Paired n (d.fill x text) (d'.fill x' text') U veiled strict ∧ U x x' := by
  have hd := h.wellFormed
  have hd' := h.wellFormed'
  have hlt := (h.stored hx).1
  have hlt' := (h.stored hx).2
  have hplace : ∀ {y}, d.parent x = some y → ¬ veiled y := by
    intro y hparent
    obtain ⟨y', -, hrel⟩ := h.exists_parent hx hparent
    exact h.not_veiled_of_element hrel hparent (isElement_of_isWord (h.isWord_veiled hveiled))
  have he := extended_fill hd hlt text
  have he' := extended_fill hd' hlt' text'
  have hholds := holdsUnmarked_fill hd hlt hempty hunmarked
  have hholds' := holdsUnmarked_fill hd' hlt' hempty' hunmarked'
  by_cases hs : strict
  · by_cases hblank : text.isEmpty = true
    · have hblank' := (hstrict hs).trans hblank
      rw [Document.fill, if_pos hblank, Document.fill, if_pos hblank']
      exact ⟨T, h, hx⟩
    · have hblank' : ¬ text'.isEmpty = true := hstrict hs ▸ hblank
      have hchildren : (d.fill x text).children x = [d.size] := by
        rw [Document.fill, if_neg hblank, hd.children_appendNew hlt, hempty, if_pos rfl,
          List.nil_append]
      have hchildren' : (d'.fill x' text').children x' = [d'.size] := by
        rw [Document.fill, if_neg hblank', hd'.children_appendNew hlt', hempty', if_pos rfl,
          List.nil_append]
      have hmem : d.size ∈ (d.fill x text).children x := by
        rw [hchildren]
        exact List.mem_singleton_self _
      have hmem' : d'.size ∈ (d'.fill x' text').children x' := by
        rw [hchildren']
        exact List.mem_singleton_self _
      refine ⟨Joined T d.size d'.size, ?_, .inl hx⟩
      refine h.extend_joined hx hplace he he' hmem hmem' (fun _ => hs) ?_ ?_
        fun _ => ⟨hholds, hholds'⟩
      · exact .inr ⟨hveiled, (hholds _ hmem).1, (hholds' _ hmem').1⟩
      · rw [hchildren, hchildren']
        exact .cons (.inr ⟨rfl, rfl⟩) .nil
  · -- the texts are related to no node, as there need not be one in each element
    refine ⟨T, h.extend hx hplace he he' id h.biUnique .inl ?_ fun _ => ⟨hholds, hholds'⟩, hx⟩
    exact fun himp => absurd (himp hveiled) hs

/-! ### Adding a comment -/

lemma rel_placeBefore (hunique : Relator.BiUnique T) {new new' : NodeId} (hx : T x x')
    {ids ids' : List NodeId} (h : List.Forall₂ T ids ids') :
    List.Forall₂ (Joined T new new') (placeBefore new x ids) (placeBefore new' x' ids') := by
  induction h with
  | nil => exact .nil
  | @cons y y' ids ids' hy hrest ih =>
    have hsame : y = x ↔ y' = x' := Relator.rel_eq hunique hy hx
    rw [placeBefore, placeBefore]
    by_cases heq : y = x
    · rw [if_pos heq, if_pos (hsame.1 heq)]
      exact .cons (.inr ⟨rfl, rfl⟩) (.cons (.inl hy) (hrest.imp fun _ _ => .inl))
    · rw [if_neg heq, if_neg (mt hsame.2 heq)]
      exact .cons (.inl hy) ih

/-- A comment may be added before related elements. -/
lemma insertNew (h : Paired n d d' T veiled strict) (hx : T x x') (helement : d.isElement x = true)
    (hparent : d.parent x = some top) (comment : String) :
    Paired n (d.insertNew x (.comment comment)) (d'.insertNew x' (.comment comment))
      (Joined T d.size d'.size) veiled strict := by
  have hd := h.wellFormed
  have hd' := h.wellFormed'
  obtain ⟨top', hparent', htop⟩ := h.exists_parent hx hparent
  have hplain : ¬ veiled top := h.not_veiled_of_element htop hparent helement
  obtain ⟨-, -, hkind, hchildren⟩ := hd.insertNew_views (.comment comment) hparent
  obtain ⟨-, -, hkind', hchildren'⟩ := hd'.insertNew_views (.comment comment) hparent'
  refine h.extend_joined htop ?_ (extended_insertNew hd hparent rfl)
    (extended_insertNew hd' hparent' rfl) ?_ ?_ (fun hveiled => absurd hveiled hplain) (.inl ?_) ?_
    fun hveiled => absurd hveiled hplain
  · intro y hy
    obtain ⟨y', -, hrel⟩ := h.exists_parent htop hy
    exact h.not_veiled_of_child hrel hy hparent
  · rw [hchildren, if_pos rfl]
    exact (placeBefore_perm (hd.mem_of_parent hparent)).mem_iff.2 List.mem_concat_self
  · rw [hchildren', if_pos rfl]
    exact (placeBefore_perm (hd'.mem_of_parent hparent')).mem_iff.2 List.mem_concat_self
  · rw [hkind, hkind', if_pos rfl, if_pos rfl]
  · rw [hchildren, hchildren', if_pos rfl, if_pos rfl]
    exact rel_placeBefore h.biUnique hx (h.children htop fun hveiled => absurd hveiled hplain)

/-! ### A substitution -/

lemma setAttribute (h : Paired n d d' T veiled strict) (hx : T x x') {localName : String}
    (hword : d.isWord x localName = true) (name value : String) :
    Paired n (d.setAttribute x name value) (d'.setAttribute x' name value) T veiled strict where
  toMirrors := h.toMirrors.setAttribute hx hword name value
  kept := h.kept
  stored hy := by
    rw [size_setAttribute, size_setAttribute]
    exact h.stored hy
  lt_of_isElement {y} hy := by
    obtain ⟨e, hkind⟩ := exists_element_of_isWord hword
    by_cases heq : y = x
    · exact heq ▸ h.lt_of_isElement (isElement_of_isWord hword)
    · rw [isElement, kind_setAttribute hkind, if_neg heq] at hy
      exact h.lt_of_isElement hy

/-- Substituting related text elements, with placeholders that have no marker, leaves a pair in
which the element is veiled. -/
theorem substitute (h : Paired n d d' T veiled strict) (hx : T x x')
    (hword : d.isWord x "t" = true) (hparent : d.parent x = some top)
    (hinstruction : ∀ {instruction}, d.isWord instruction "instrText" = true →
      ¬ d.Below instruction x) {options options' : Options} (ho : options.SameMerge options' strict)
    (path : String) :
    ∃ U, Paired n (d.substitute options x path) (d'.substitute options' x' path) U
      (fun y => veiled y ∨ y = x) strict := by
  have hd := h.wellFormed
  have hcleared : Paired n (d.clearChildren x) (d'.clearChildren x') T
      (fun y => veiled y ∨ y = x) strict :=
    ⟨h.toMirrors.clearChildren hx (fun y hne => or_iff_left hne) (fun _ => hword)
        fun _ => hinstruction,
      h.kept, fun hy => by simpa using h.stored hy,
      fun {y} hy => h.lt_of_isElement (by rwa [isElement, kind_clearChildren] at hy)⟩
  obtain ⟨U, hfilled, hU⟩ := hcleared.fill hx (.inr rfl) (by simp [children_clearChildren])
    (by simp [children_clearChildren]) ho.unmarked ho.unmarked' ho.isEmpty_eq
  have hlt : x < (d.clearChildren x).size := (hcleared.stored hx).1
  have hext := extended_fill (hd.clearChildren x) hlt options.placeholder
  have hword' : ((d.clearChildren x).fill x options.placeholder).isWord x "t" = true := by
    rwa [hext.isWord_eq, isWord_congr (kind_clearChildren d x x)]
  have hparent' : ((d.clearChildren x).fill x options.placeholder).parent x = some top := by
    rwa [hext.parent_eq (hd.clearChildren x) hlt, hd.parent_clearChildren, if_neg]
    exact fun hmem => hd.acyclic x (below_of_parent (hd.parent_of_mem hmem))
  obtain ⟨e, hkind⟩ := exists_element_of_isWord hword'
  have hrecorded := hfilled.setAttribute hU hword' mergeAttribute path
  have helement := (isWord_setAttribute hkind mergeAttribute path x "t").trans hword'
  rw [substitute_eq, substitute_eq, ho.mergeComments_eq, setTextContent_eq_fill,
    setTextContent_eq_fill]
  split
  · exact ⟨_, hrecorded.insertNew hU (isElement_of_isWord helement)
      ((parent_setAttribute _ x mergeAttribute path x).trans hparent') _⟩
  · exact ⟨U, hrecorded⟩

end Paired

end Document

end WordFields
