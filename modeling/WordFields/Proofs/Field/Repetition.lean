import WordFields.Proofs.Field.Accounting
import WordFields.Proofs.Tree.Ascent
import WordFields.Proofs.Word.Likeness
import WordFields.Proofs.Word.Sheet

/-!
# A pass over merge fields repeated

Substitution takes the nodes below text elements away and adds comments beside them.  If text
elements hold no elements and are in no instruction (`Document.BareTexts`), the fields are found on
the same ways before and after it (`Substituted.alike`), so each field has the same place and the
same report whenever it comes up (`Substituted.mergePlace_eq`, `Substituted.mergeReport?_eq`).

A pass leaves a document in which every path is recorded where its field has its place
(`settled_processMergeFields`), if no two fields with one place want different paths there.  Another
pass then finds nothing to do (`processMergeFields_twice`).
-/

namespace WordFields

lemma flatMap_filter_of_nil {α β : Type} {items : List α} {f : α → List β} {p : α → Bool}
    (h : ∀ a ∈ items, p a = false → f a = []) : (items.filter p).flatMap f = items.flatMap f := by
  induction items with
  | nil => rfl
  | cons a items ih =>
    obtain ⟨hhead, htail⟩ := List.forall_mem_cons.1 h
    rw [List.flatMap_cons, ← ih htail]
    by_cases ha : p a = true
    · rw [List.filter_cons_of_pos ha, List.flatMap_cons]
    · rw [List.filter_cons_of_neg ha, hhead (by simpa using ha), List.nil_append]

namespace Document

variable {d d' : Document}

/-! ## Ways to fields -/

/-- A document in which text elements hold no elements and are in no instruction. -/
structure BareTexts (d : Document) : Prop where
  no_element : ∀ {text x}, d.isWord text "t" = true → d.Below text x → d.isElement x = false
  not_in_instruction : ∀ {instruction text}, d.isWord instruction "instrText" = true →
    d.isWord text "t" = true → ¬ d.Below instruction text

/-- Whether a document is so, to be computed. -/
def hasBareTexts (d : Document) : Bool :=
  (List.range d.size).all fun x =>
    (!d.isWord x "t" || (d.descendants x).all fun y => !d.isElement y) &&
      (!d.isWord x "instrText" || (d.descendants x).all fun y => !d.isWord y "t")

lemma BareTexts.of_hasBareTexts (hd : d.WellFormed) (h : d.hasBareTexts = true) : d.BareTexts := by
  have hall : ∀ x, d.isElement x = true →
      (d.isWord x "t" = true → ∀ y ∈ d.descendants x, d.isElement y = false) ∧
        (d.isWord x "instrText" = true → ∀ y ∈ d.descendants x, d.isWord y "t" = false) := by
    intro x hx
    have hboth := List.all_eq_true.1 h x (List.mem_range.2 (lt_size_of_isElement hx))
    simp only [Bool.and_eq_true, Bool.or_eq_true, Bool.not_eq_true', List.all_eq_true] at hboth
    exact ⟨fun hword => hboth.1.resolve_left (by simp [hword]),
      fun hword => hboth.2.resolve_left (by simp [hword])⟩
  constructor
  · intro text x htext hbelow
    exact (hall text (isElement_of_isWord htext)).1 htext x (hd.mem_descendants.2 hbelow)
  · intro instruction text hinstruction htext hbelow
    have hfalse := (hall instruction (isElement_of_isWord hinstruction)).2 hinstruction text
      (hd.mem_descendants.2 hbelow)
    rw [htext] at hfalse
    cases hfalse

namespace Substituted

variable {options : Options} {targets : List (NodeId × String)}

lemma isElement_eq (h : Substituted d d' options targets) (x : NodeId) :
    d'.isElement x = d.isElement x := by
  by_cases hx : x ∈ targets.map Prod.fst
  · obtain ⟨e, path, -, -, -, -, hold, hnew⟩ := h.kind_target x hx
    rw [isElement_of_kind hold, isElement_of_kind hnew]
  · by_cases hlt : x < d.size
    · rw [isElement, isElement, h.kind_eq x hlt hx]
    · rw [h.isElement_new x (Nat.le_of_not_lt hlt), isElement_of_size_le (Nat.le_of_not_lt hlt)]

/-- Nothing is below a new node. -/
lemma children_eq_nil (h : Substituted d d' options targets) {x : NodeId} (hx : d.size ≤ x) :
    d'.children x = [] := by
  have hnot : x ∉ targets.map Prod.fst := fun hmem => absurd (h.lt_size hmem) (Nat.not_lt.2 hx)
  rw [h.children_eq_of_forall hnot (by simp [children_of_size_le hx]), children_of_size_le hx]

/-- No element is below an element that was substituted. -/
lemma filter_descendants_target (h : Substituted d d' options targets) {x : NodeId}
    (hx : x ∈ targets.map Prod.fst) : (d'.descendants x).filter d'.isElement = [] := by
  rw [h.wellFormed.descendants_eq_flatMap]
  have hchildren := h.children_target x hx
  split at hchildren
  · rw [hchildren]
    rfl
  · obtain ⟨text, htext, hnew, -⟩ := hchildren
    have hnone : d'.descendants text = [] := by
      rw [h.wellFormed.descendants_eq_flatMap, h.children_eq_nil hnew]
      rfl
    simp [htext, hnone, h.isElement_new text hnew]

/-- The same elements are below a node. -/
lemma filter_descendants (h : Substituted d d' options targets) (hd : d.WellFormed)
    (hbare : d.BareTexts) (x : NodeId) :
    (d'.descendants x).filter d'.isElement = (d.descendants x).filter d.isElement := by
  by_cases hx : x ∈ targets.map Prod.fst
  · rw [h.filter_descendants_target hx, eq_comm, List.filter_eq_nil_iff]
    intro y hy
    simp [hbare.no_element (h.isWord x hx) (hd.mem_descendants.1 hy)]
  · have hnew : ∀ child ∈ d'.children x, ¬ child < d.size →
        (child :: d'.descendants child).filter d'.isElement = [] := by
      intro child _ hge
      have hle := Nat.le_of_not_lt hge
      rw [h.wellFormed.descendants_eq_flatMap, h.children_eq_nil hle]
      simp [h.isElement_new child hle]
    have hold : ∀ child ∈ d.children x, (child :: d'.descendants child).filter d'.isElement =
        (child :: d.descendants child).filter d.isElement := by
      intro child hchild
      rw [List.filter_cons, List.filter_cons, h.isElement_eq, filter_descendants h hd hbare child]
    rw [h.wellFormed.descendants_eq_flatMap, hd.descendants_eq_flatMap, List.filter_flatMap,
      List.filter_flatMap, ← List.flatMap_congr hold, ← h.children_eq x hx]
    refine (flatMap_filter_of_nil fun child hchild hge => ?_).symm
    exact hnew child hchild (of_decide_eq_false hge)
termination_by d.size - d.level x
decreasing_by
  have hlt := hd.level_lt_of_mem ‹_›
  have hle := d.level_le_size child
  omega

section

variable (h : Substituted d d' options targets) (hd : d.WellFormed)

include h hd

/-- A node that was there before is nowhere but where it was. -/
lemma parent_of_parent {x top : NodeId} (hx : x < d.size) (hparent : d'.parent x = some top) :
    d.parent x = some top := by
  have hchild := h.wellFormed.mem_of_parent hparent
  by_cases htarget : top ∈ targets.map Prod.fst
  · have hchildren := h.children_target top htarget
    split at hchildren
    · rw [hchildren] at hchild
      cases hchild
    · obtain ⟨text, htext, hnew, -⟩ := hchildren
      rw [htext, List.mem_singleton] at hchild
      exact absurd (hchild ▸ hx) (Nat.not_lt.2 hnew)
  · apply hd.parent_of_mem
    rw [← h.children_eq top htarget]
    exact List.mem_filter.2 ⟨hchild, decide_eq_true hx⟩

/-- A node that was not below a substituted element stays where it is. -/
lemma parent_eq {x : NodeId} (hx : x < d.size)
    (hplace : ∀ top, d.parent x = some top → top ∉ targets.map Prod.fst) :
    d'.parent x = d.parent x := by
  ext top
  constructor
  · exact fun hparent => h.parent_of_parent hd hx hparent
  · intro hparent
    have hmem : x ∈ (d'.children top).filter (· < d.size) :=
      h.children_eq top (hplace top hparent) ▸ hd.mem_of_parent hparent
    exact h.wellFormed.parent_of_mem (List.mem_of_mem_filter hmem)

/-- The same elements are beside such a node. -/
lemma besides_eq {x : NodeId} (hx : x < d.size)
    (hplace : ∀ top, d.parent x = some top → top ∉ targets.map Prod.fst) :
    d'.followingElements x = d.followingElements x ∧
      d'.precedingElements x = d.precedingElements x := by
  have hparent := h.parent_eq hd hx hplace
  obtain ⟨hfollowing, hpreceding⟩ := siblings_eq_filter h.wellFormed hd (decide_eq_true hx)
    hparent.symm fun top htop => (h.children_eq top (hplace top (hparent ▸ htop))).symm
  have hkeep : ∀ ids : List NodeId,
      ids.filter d'.isElement = (ids.filter (· < d.size)).filter d.isElement := by
    intro ids
    rw [List.filter_filter]
    refine List.filter_congr fun y _ => ?_
    rw [h.isElement_eq]
    cases helement : d.isElement y with
    | false => rfl
    | true => simp [lt_size_of_isElement helement]
  rw [followingElements, followingElements, precedingElements, precedingElements, hfollowing,
    hpreceding, hkeep, hkeep]
  exact ⟨rfl, rfl⟩

end

lemma fieldMark?_eq (h : Substituted d d' options targets) (x : NodeId) :
    d'.fieldMark? x = d.fieldMark? x := by
  have hword : d'.isWord x "fldChar" = d.isWord x "fldChar" := h.isElementIn_eq x _ _
  rw [fieldMark?, fieldMark?, hword]
  by_cases hmark : d.isWord x "fldChar" = true
  · have hnot : x ∉ targets.map Prod.fst := fun hmem =>
      absurd (name_eq_of_isWord hmark (h.isWord x hmem)) (by decide)
    have hlt : x < d.size := lt_size_of_isElement (isElement_of_isWord hmark)
    simp only [wordAttribute?, attributeIn?, element?, h.kind_eq x hlt hnot]
  · rw [if_neg hmark, if_neg hmark]

/-- The text of an instruction is the same. -/
lemma textContent_eq (h : Substituted d d' options targets) (hd : d.WellFormed)
    (hbare : d.BareTexts) {x : NodeId} (hx : d.isWord x "instrText" = true) :
    d'.textContent x = d.textContent x := by
  have hplace : ∀ y, y = x ∨ d.Below x y → y ∉ targets.map Prod.fst := by
    rintro y (rfl | hbelow) hmem
    · exact absurd (name_eq_of_isWord hx (h.isWord y hmem)) (by decide)
    · exact hbare.not_in_instruction hx (h.isWord y hmem) hbelow
  have hsize : ∀ y, y = x ∨ d.Below x y → y < d.size := by
    rintro y (rfl | hbelow)
    · exact lt_size_of_isElement (isElement_of_isWord hx)
    · obtain ⟨top, htop, -⟩ := Relation.TransGen.head'_iff.1 hbelow
      exact hd.child_lt_size (hd.mem_of_parent htop)
  have hchildren : ∀ y, y = x ∨ d.Below x y → d'.children y = d.children y := by
    intro y hy
    have hbelow : ∀ child ∈ d.children y, d.Below x child := fun child hchild => by
      have hparent := below_of_parent (hd.parent_of_mem hchild)
      rcases hy with rfl | hy
      · exact hparent
      · exact hy.trans hparent
    rw [← h.children_eq y (hplace y hy), eq_comm, List.filter_eq_self]
    intro child hchild
    apply decide_eq_true
    by_contra hnew
    obtain ⟨-, target, htarget, hmem, -⟩ :=
      h.children_new y (hplace y hy) child hchild (Nat.not_lt.1 hnew)
    exact hplace _ (.inr (hbelow _ hmem)) (List.mem_map_of_mem htarget)
  have hkind : ∀ y, y = x ∨ d.Below x y → d'.kind y = d.kind y := fun y hy =>
    h.kind_eq y (hsize y hy) (hplace y hy)
  rw [textContent, textContent, hkind x (.inl rfl), hd.descendants_congr h.wellFormed hchildren]
  split
  · rfl
  · congr 1
    refine List.filterMap_congr fun y hy => ?_
    rw [hkind y (.inr (hd.mem_descendants.1 hy))]

/-- Substitutions leave the ways to the fields alone. -/
theorem alike (h : Substituted d d' options targets) (hd : d.WellFormed)
    (hbare : d.BareTexts) : Alike d d' Eq := by
  have hplace : ∀ {x child top}, d.parent child = some x → d.isElement child = true →
      d.parent x = some top → top ∉ targets.map Prod.fst := by
    intro x child top hchild helement htop hmem
    have hbelow := (below_of_parent htop).trans (below_of_parent hchild)
    rw [hbare.no_element (h.isWord top hmem) hbelow] at helement
    cases helement
  have hbesides : ∀ {x child}, d.parent child = some x → d.isElement child = true →
      d'.followingElements x = d.followingElements x ∧
        d'.precedingElements x = d.precedingElements x := fun hchild helement =>
    h.besides_eq hd (lt_size_of_mem_children (hd.mem_of_parent hchild)) fun top htop =>
      hplace hchild helement htop
  constructor
  · exact ⟨fun _ _ _ hx hy => hx.trans hy.symm, fun _ _ _ hx hy => hx.symm.trans hy⟩
  · rfl
  · rintro x _ rfl localName
    exact h.isElementIn_eq x _ _
  · rintro x _ rfl
    exact h.fieldMark?_eq x
  · rintro x _ rfl hx
    exact h.textContent_eq hd hbare hx
  · rintro x _ rfl
    rw [h.filter_descendants hd hbare, List.forall₂_eq_eq_eq]
  · rintro x _ rfl helement
    rw [h.parent_eq hd (lt_size_of_isElement helement) fun top htop hmem => ?_]
    · exact rel_self Eq.refl _
    · rw [hbare.no_element (h.isWord top hmem) (below_of_parent htop)] at helement
      cases helement
  · rintro x _ rfl child hchild helement
    rw [(hbesides hchild helement).1, List.forall₂_eq_eq_eq]
  · rintro x _ rfl child hchild helement
    rw [(hbesides hchild helement).2, List.forall₂_eq_eq_eq]

/-- The run of an element is the same. -/
lemma enclosingRun?_eq (h : Substituted d d' options targets) (hd : d.WellFormed)
    (hbare : d.BareTexts) {x : NodeId} (hx : d.isElement x = true) :
    d'.enclosingRun? x = d.enclosingRun? x := by
  have hlevel := d.level_le_size x
  refine nearest?_congr hd (fun y _ => h.isElementIn_eq y _ _) (fun y hy => ?_) hlevel
    (hlevel.trans h.size_le)
  refine h.parent_eq hd ?_ fun top htop hmem => ?_
  · rcases hy with rfl | hbelow
    · exact lt_size_of_isElement hx
    · obtain ⟨child, -, hchild⟩ := Relation.TransGen.tail'_iff.1 hbelow
      exact lt_size_of_mem_children (hd.mem_of_parent hchild)
  · have hbelow : d.Below top x := by
      rcases hy with rfl | hbelow
      · exact below_of_parent htop
      · exact (below_of_parent htop).trans hbelow
    rw [hbare.no_element (h.isWord top hmem) hbelow] at hx
    cases hx

end Substituted

/-! ## Where results are -/

/-- The text element that shows the result of a merge field, with the path of the field, or why
there is none. -/
def mergePlace (d : Document) (field : MergeField) : Except Diagnostic (NodeId × String) :=
  match field.path with
  | none =>
    .error (namelessMerge (String.ofList (Text.trim (d.textContent field.instruction).toList)))
  | some path =>
    match d.locateTriad field.instruction with
    | .error missing => .error (incompleteMerge path missing)
    | .ok triad =>
      match d.resultText? triad with
      | none => .error (emptyMerge path)
      | some element => .ok (element, path)

/-- What there is to do for a merge field depends on its place and on the path recorded there. -/
lemma mergeAction_eq (d : Document) (field : MergeField) :
    d.mergeAction field =
      match d.mergePlace field with
      | .error diagnostic => .report diagnostic
      | .ok (element, path) =>
        if d.attribute? element mergeAttribute = some path then .keep
        else .substitute element path := by
  unfold mergeAction mergePlace
  cases field.path with
  | none => rfl
  | some path =>
    dsimp only
    cases d.locateTriad field.instruction with
    | error missing => rfl
    | ok triad =>
      dsimp only
      cases d.resultText? triad with
      | none => rfl
      | some element => rfl

lemma isWord_of_mem_mergeFields {field : MergeField} (h : field ∈ d.mergeFields) :
    d.isWord field.instruction "instrText" = true := by
  obtain ⟨id, hid, hfield⟩ := List.mem_filterMap.1 h
  have hword : d.isWord id "instrText" = true := (List.mem_filter.1 hid).2
  simp only at hfield
  split at hfield
  · split at hfield <;> cases hfield <;> exact hword
  · cases hfield

namespace Alike

variable {R : NodeId → NodeId → Prop}

/-- Related merge fields have their results at related places. -/
lemma mergePlace (h : Alike d d' R) {field field' : MergeField}
    (hrel : R field.instruction field'.instruction) (hpath : field'.path = field.path)
    (hword : d.isWord field.instruction "instrText" = true) :
    (∃ diagnostic, d.mergePlace field = .error diagnostic ∧
        d'.mergePlace field' = .error diagnostic) ∨
      ∃ element element' path, d.mergePlace field = .ok (element, path) ∧
        d'.mergePlace field' = .ok (element', path) ∧ R element element' := by
  unfold Document.mergePlace
  rw [hpath]
  cases hcase : field.path with
  | none =>
    rw [h.textContent_eq hrel hword]
    exact .inl ⟨_, rfl, rfl⟩
  | some path =>
    rcases h.locateTriad hrel (isElement_of_isWord hword) with
      ⟨missing, hmissing, hmissing'⟩ |
        ⟨triad, triad', htriad, htriad', hseparator, hending, helement, helement'⟩
    · exact .inl ⟨incompleteMerge path missing, by simp only [hmissing], by simp only [hmissing']⟩
    · rcases rel_iff.1 (h.resultText? hseparator hending helement helement') with
        ⟨hnone, hnone'⟩ | ⟨element, element', hresult, hresult', hplace⟩
      · exact .inl ⟨emptyMerge path, by simp only [htriad, hnone],
          by simp only [htriad', hnone']⟩
      · exact .inr ⟨element, element', path, by simp only [htriad, hresult],
          by simp only [htriad', hresult'], hplace⟩

/-- The merge fields of the two documents are related. -/
lemma mergeFields (h : Alike d d' R) :
    List.Forall₂ (fun field field' =>
        R field.instruction field'.instruction ∧ field'.path = field.path)
      d.mergeFields d'.mergeFields := by
  have hinstructions : List.Forall₂ (fun x x' => d.isWord x "instrText" = true ∧ R x x')
      d.instructions d'.instructions :=
    (List.forall₂_and_left _ _).2
      ⟨fun x hx => (List.mem_filter.1 hx).2, h.wordDescendants h.root "instrText"⟩
  refine List.rel_filterMap (fun x x' hx => ?_) hinstructions
  simp only [h.textContent_eq hx.2 hx.1]
  split
  · split <;> exact .some ⟨hx.2, rfl⟩
  · exact .none

end Alike

section

variable {options : Options} {targets : List (NodeId × String)} {field : MergeField}

lemma Substituted.mergePlace_eq (h : Substituted d d' options targets) (hd : d.WellFormed)
    (hbare : d.BareTexts) (hfield : field ∈ d.mergeFields) :
    d'.mergePlace field = d.mergePlace field := by
  rcases @Alike.mergePlace d d' Eq (h.alike hd hbare) field field rfl rfl
    (isWord_of_mem_mergeFields hfield) with
      ⟨diagnostic, hold, hnew⟩ | ⟨element, _, path, hold, hnew, rfl⟩
  · rw [hold, hnew]
  · rw [hold, hnew]

lemma Substituted.mergeFields_eq (h : Substituted d d' options targets) (hd : d.WellFormed)
    (hbare : d.BareTexts) : d'.mergeFields = d.mergeFields := by
  have hfields := (h.alike hd hbare).mergeFields
  refine (List.forall₂_eq_eq_eq ▸ hfields.imp fun field field' hrel => ?_).symm
  obtain ⟨instruction, path⟩ := field
  obtain ⟨instruction', path'⟩ := field'
  rw [MergeField.mk.injEq]
  exact ⟨hrel.1, hrel.2.symm⟩

lemma Substituted.runs_eq (h : Substituted d d' options targets) (hd : d.WellFormed)
    (hbare : d.BareTexts) : d'.runs = d.runs := by
  have hruns : List.Forall₂ Eq d.runs d'.runs :=
    (h.alike hd hbare).wordDescendants (h.alike hd hbare).root "r"
  rw [List.forall₂_eq_eq_eq] at hruns
  exact hruns.symm

/-- What is reported for a merge field, with the index of its run. -/
def mergeReport? (d : Document) (field : MergeField) : Option Diagnostic :=
  match d.mergePlace field with
  | .error diagnostic =>
    some { diagnostic with run := (d.enclosingRun? field.instruction).bind d.runs.idxOf? }
  | .ok _ => none

lemma Substituted.mergeReport?_eq (h : Substituted d d' options targets) (hd : d.WellFormed)
    (hbare : d.BareTexts) (hfield : field ∈ d.mergeFields) :
    d'.mergeReport? field = d.mergeReport? field := by
  have helement := isElement_of_isWord (isWord_of_mem_mergeFields hfield)
  rw [mergeReport?, mergeReport?, h.mergePlace_eq hd hbare hfield,
    h.enclosingRun?_eq hd hbare helement, h.runs_eq hd hbare]

lemma attribute?_eq_of_kind {x : NodeId} (h : d'.kind x = d.kind x) (name : String) :
    d'.attribute? x name = d.attribute? x name := by
  rw [attribute?, attribute?, element?, element?, h]

/-- After a field has come up its path is recorded at its place. -/
lemma attribute?_apply (hd : d.WellFormed) (options : Options) {element : NodeId} {path : String}
    (hplace : d.mergePlace field = .ok (element, path)) :
    ((d.mergeAction field).apply d options).attribute? element mergeAttribute = some path := by
  have happly := substituted_apply hd options field
  have haction := d.mergeAction_eq field
  simp only [hplace] at haction
  split at haction
  next hrecorded => rwa [haction]
  next =>
    rw [haction] at happly ⊢
    obtain ⟨e, path', before, after, hsplit, -, -, hnew⟩ := happly.kind_target element (by
      simp [MergeAction.target?])
    have hmem : (element, path') ∈ [(element, path)] := by
      rw [show [(element, path)] = before ++ (element, path') :: after from hsplit]
      exact List.mem_append_right _ List.mem_cons_self
    obtain rfl : path' = path := (Prod.mk.inj (List.mem_singleton.1 hmem)).2
    rw [attribute?, element?, hnew]
    exact Element.attribute?_setAttribute e path'

/-- A path that is recorded stays if no other field records another one there. -/
lemma attribute?_apply_of_ne (hd : d.WellFormed) (options : Options) {element : NodeId}
    {path : String} (hrecorded : d.attribute? element mergeAttribute = some path)
    (hplace : ∀ path', d.mergePlace field = .ok (element, path') → path' = path) :
    ((d.mergeAction field).apply d options).attribute? element mergeAttribute = some path := by
  have happly := substituted_apply hd options field
  have haction := d.mergeAction_eq field
  cases hcase : d.mergePlace field with
  | error diagnostic =>
    simp only [hcase] at haction
    rwa [haction]
  | ok place =>
    obtain ⟨element', path'⟩ := place
    by_cases heq : element' = element
    · subst heq
      rw [← hplace path' hcase]
      exact attribute?_apply hd options hcase
    · simp only [hcase] at haction
      have hlt : element < d.size := by
        by_contra hge
        rw [attribute?, element?, kind, node_of_size_le (Nat.le_of_not_lt hge)] at hrecorded
        cases hrecorded
      rw [attribute?_eq_of_kind (happly.kind_eq element hlt ?_), hrecorded]
      rw [haction]
      split
      · exact List.not_mem_nil
      · simpa [MergeAction.target?] using Ne.symm heq

end

/-! ## Passing twice -/

/-- Whether the path of every merge field that has a place is recorded there. -/
def Settled (d : Document) : Prop :=
  ∀ field ∈ d.mergeFields, ∀ element path, d.mergePlace field = .ok (element, path) →
    d.attribute? element mergeAttribute = some path

/-- There is nothing to do in a settled document. -/
theorem Settled.processMergeFields_eq (h : d.Settled) (options : Options) :
    d.processMergeFields options = ⟨d, 0, d.mergeFields.filterMap d.mergeReport?⟩ := by
  suffices ∀ (fields : List MergeField) (diagnostics : List Diagnostic),
      (∀ field ∈ fields, field ∈ d.mergeFields) →
      fields.foldl (mergeStep options d.runs) ⟨d, 0, diagnostics⟩ =
        ⟨d, 0, diagnostics ++ fields.filterMap d.mergeReport?⟩ by
    exact this d.mergeFields [] fun field hfield => hfield
  intro fields
  induction fields with
  | nil => exact fun diagnostics _ => by simp
  | cons field fields ih =>
    intro diagnostics hfields
    obtain ⟨hfield, hrest⟩ := List.forall_mem_cons.1 hfields
    have haction := d.mergeAction_eq field
    rw [List.foldl_cons, List.filterMap_cons]
    cases hplace : d.mergePlace field with
    | error diagnostic =>
      simp only [hplace] at haction
      have hstep : mergeStep options d.runs ⟨d, 0, diagnostics⟩ field =
          ⟨d, 0, diagnostics ++ [{ diagnostic with
            run := (d.enclosingRun? field.instruction).bind d.runs.idxOf? }]⟩ := by
        simp only [mergeStep, haction]
      rw [hstep, ih _ hrest]
      simp only [mergeReport?, hplace, List.append_assoc, List.singleton_append]
    | ok place =>
      obtain ⟨element, path⟩ := place
      simp only [hplace, if_pos (h field hfield element path hplace)] at haction
      have hstep : mergeStep options d.runs ⟨d, 0, diagnostics⟩ field = ⟨d, 0, diagnostics⟩ := by
        simp only [mergeStep, haction]
      rw [hstep, ih _ hrest]
      simp only [mergeReport?, hplace]

/-- Whether merge fields that show their results in the same text element name the same path. -/
def MergesAgree (d : Document) : Prop :=
  ∀ field ∈ d.mergeFields, ∀ field' ∈ d.mergeFields, ∀ element path path',
    d.mergePlace field = .ok (element, path) → d.mergePlace field' = .ok (element, path') →
      path' = path

section

variable {options : Options} {targets : List (NodeId × String)} {runs : List NodeId}
  {fields : List MergeField} {result : PassResult}

/-- A substitution more. -/
lemma Substituted.mergeStep (h : Substituted d result.document options targets)
    (runs : List NodeId) (field : MergeField) :
    ∃ targets', Substituted d (mergeStep options runs result field).document options targets' := by
  rw [document_mergeStep]
  exact ⟨_, h.trans (substituted_apply h.wellFormed options field)⟩

/-- What is reported does not depend on the substitutions that have been made. -/
lemma Substituted.diagnostics_mergeStep (h : Substituted d result.document options targets)
    (hd : d.WellFormed) (hbare : d.BareTexts) {field : MergeField}
    (hfield : field ∈ d.mergeFields) :
    (Document.mergeStep options d.runs result field).diagnostics =
      result.diagnostics ++ (d.mergeReport? field).toList := by
  have haction := result.document.mergeAction_eq field
  rw [← h.mergeReport?_eq hd hbare hfield, ← h.runs_eq hd hbare]
  cases hplace : result.document.mergePlace field with
  | error diagnostic =>
    simp only [hplace] at haction
    simp only [Document.mergeStep, haction, mergeReport?, hplace, Option.toList_some]
  | ok place =>
    simp only [hplace] at haction
    simp only [mergeReport?, hplace, Option.toList_none, List.append_nil]
    split at haction <;> simp only [Document.mergeStep, haction]

lemma Substituted.diagnostics_foldl (h : Substituted d result.document options targets)
    (hd : d.WellFormed) (hbare : d.BareTexts) (hfields : ∀ field ∈ fields, field ∈ d.mergeFields) :
    (fields.foldl (Document.mergeStep options d.runs) result).diagnostics =
      result.diagnostics ++ fields.filterMap d.mergeReport? := by
  induction fields generalizing result targets with
  | nil => exact (List.append_nil _).symm
  | cons field fields ih =>
    obtain ⟨hfield, hrest⟩ := List.forall_mem_cons.1 hfields
    obtain ⟨targets', h'⟩ := h.mergeStep d.runs field
    rw [List.foldl_cons, ih h' hrest, h.diagnostics_mergeStep hd hbare hfield, List.append_assoc,
      List.filterMap_cons]
    cases d.mergeReport? field <;> rfl

/-- A path that is recorded stays if the fields that come up agree with it. -/
lemma Substituted.attribute?_foldl (h : Substituted d result.document options targets)
    (hd : d.WellFormed) (hbare : d.BareTexts) (hfields : ∀ field ∈ fields, field ∈ d.mergeFields)
    {element : NodeId} {path : String}
    (hrecorded : result.document.attribute? element mergeAttribute = some path)
    (hagree : ∀ field ∈ fields, ∀ path', d.mergePlace field = .ok (element, path') → path' = path) :
    (fields.foldl (Document.mergeStep options runs) result).document.attribute? element
      mergeAttribute = some path := by
  induction fields generalizing result targets with
  | nil => exact hrecorded
  | cons field fields ih =>
    obtain ⟨hfield, hrest⟩ := List.forall_mem_cons.1 hfields
    obtain ⟨hhead, htail⟩ := List.forall_mem_cons.1 hagree
    obtain ⟨targets', h'⟩ := h.mergeStep runs field
    refine ih h' hrest ?_ htail
    rw [document_mergeStep]
    refine attribute?_apply_of_ne h.wellFormed options hrecorded fun path' hplace => hhead path' ?_
    rwa [← h.mergePlace_eq hd hbare hfield]

/-- A pass records the path of every field that comes up. -/
lemma Substituted.recorded_foldl (h : Substituted d result.document options targets)
    (hd : d.WellFormed) (hbare : d.BareTexts) (hagree : d.MergesAgree)
    (hfields : ∀ field ∈ fields, field ∈ d.mergeFields) {field : MergeField}
    (hfield : field ∈ fields) {element : NodeId} {path : String}
    (hplace : d.mergePlace field = .ok (element, path)) :
    (fields.foldl (Document.mergeStep options runs) result).document.attribute? element
      mergeAttribute = some path := by
  induction fields generalizing result targets with
  | nil => exact absurd hfield List.not_mem_nil
  | cons first fields ih =>
    obtain ⟨hfirst, hrest⟩ := List.forall_mem_cons.1 hfields
    obtain ⟨targets', h'⟩ := h.mergeStep runs first
    rcases List.mem_cons.1 hfield with rfl | hmem
    · refine h'.attribute?_foldl hd hbare hrest ?_ fun other hother path' hplace' =>
        hagree field hfirst other (hrest other hother) element path path' hplace hplace'
      rw [document_mergeStep]
      refine attribute?_apply h.wellFormed options ?_
      rwa [h.mergePlace_eq hd hbare hfirst]
    · exact ih h' hrest hmem

end

/-- After a pass the path of every merge field that has a place is recorded there. -/
theorem settled_processMergeFields (hd : d.WellFormed) (hbare : d.BareTexts)
    (hagree : d.MergesAgree) (options : Options) :
    (d.processMergeFields options).document.Settled := by
  have h : Substituted d (d.processMergeFields options).document options
      (mergeTargets options d d.mergeFields) :=
    processMergeFields_document d options ▸ substituted_mergeTargets hd options d.mergeFields
  intro field hfield element path hplace
  rw [h.mergeFields_eq hd hbare] at hfield
  rw [h.mergePlace_eq hd hbare hfield] at hplace
  exact @Substituted.recorded_foldl d options [] d.runs d.mergeFields ⟨d, 0, []⟩ (.refl hd options)
    hd hbare hagree (fun _ hmem => hmem) field hfield element path hplace

/-- A second pass does nothing, and reports what the first one did. -/
theorem processMergeFields_twice (hd : d.WellFormed) (hbare : d.BareTexts)
    (hagree : d.MergesAgree) (options : Options) :
    (d.processMergeFields options).document.processMergeFields options =
      ⟨(d.processMergeFields options).document, 0, (d.processMergeFields options).diagnostics⟩ := by
  have h : Substituted d (d.processMergeFields options).document options
      (mergeTargets options d d.mergeFields) :=
    processMergeFields_document d options ▸ substituted_mergeTargets hd options d.mergeFields
  have hdiagnostics : (d.processMergeFields options).diagnostics =
      d.mergeFields.filterMap d.mergeReport? :=
    @Substituted.diagnostics_foldl d options [] d.mergeFields ⟨d, 0, []⟩ (.refl hd options) hd
      hbare fun _ hmem => hmem
  have hreports : d.mergeFields.filterMap (d.processMergeFields options).document.mergeReport? =
      d.mergeFields.filterMap d.mergeReport? :=
    List.filterMap_congr fun field hfield => h.mergeReport?_eq hd hbare hfield
  rw [(settled_processMergeFields hd hbare hagree options).processMergeFields_eq,
    h.mergeFields_eq hd hbare, hreports, hdiagnostics]

end Document

end WordFields
