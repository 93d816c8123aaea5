import WordFields.Proofs.Field.Sealing

/-!
# Templates in joined cells

Joined cells of a template have the fields of the template if and only if they are sealed
(`Template.found_iff_sealed`).  Both directions follow the template and keep, beside the cells that
come next, the pieces that the run of the last inner field has swallowed: `ReadFrom` says that idle
pieces do not matter, `ReadBack` that only idle ones are swallowed where all items are there.
-/

namespace WordFields

namespace Outline

/-- The content of a field that is closed. -/
def closed (outline : Outline) : Outline :=
  { outline with isClosed := true }

end Outline

section

variable {depth : Nat} {lost : List Piece} {cells later : List Cell}

/-! ## Idle pieces -/

lemma Idle.nil (cells : List Cell) : Idle [] cells :=
  .inl rfl

/-- Idle pieces are none unless an `%else%` comes next. -/
lemma Idle.eq_nil (h : Idle lost cells) {cell : Cell}
    (hsplit : (Cell.run lost :: cells).flatMap Cell.split = cell :: later)
    (hcell : cell ≠ .run [.marker .elseMarker]) : lost = [] := by
  rcases h with rfl | ⟨rfl, -⟩
  · rfl
  · exact absurd (List.cons.inj hsplit).1.symm hcell

/-- Idle pieces neither open nor close a field. -/
lemma Idle.foldl_depthAfter (h : Idle lost cells) : lost.foldl Piece.depthAfter depth = depth := by
  rcases h with rfl | ⟨rfl, -⟩
  · rfl
  · rfl

/-! ## Sealed cells have the fields -/

/-- The run that closes a field, in sealed cells. -/
lemma exists_closing (hsealed : Sealed (depth + 1) cells)
    (h : cells.flatMap Cell.split = .run [.marker .endMarker] :: later) :
    ∃ (pieces : List Piece) (cells' : List Cell),
      (Cell.run pieces :: cells').flatMap Cell.split = later ∧
      (1 ≤ depth → Idle pieces cells') ∧ Sealed depth (.run pieces :: cells') ∧
      ∀ outline : Outline, outline.isClosed = false →
        Consumes cells outline cells' outline.closed := by
  obtain ⟨n, pieces, cells', rfl, hlater⟩ := exists_run_of_split h
  rw [sealed_replicate] at hsealed
  refine ⟨pieces, cells', hlater, fun hdepth => hsealed.1.1 rfl (Nat.succ_le_succ hdepth),
    hsealed.behind, ?_⟩
  intro outline hopen
  rw [consumes_replicate hopen, consumes_endMarker_iff hopen]
  exact ⟨rfl, rfl⟩

end

namespace Template

/-- Whether the cells of a template, found at the beginning of some sealed cells behind idle pieces,
are read as the items of the template by a field that is open there. -/
def ReadFrom (template : Template) : Prop :=
  ∀ {depth : Nat} {lost : List Piece} {cells later : List Cell}, 1 ≤ depth → Idle lost cells →
    Sealed depth cells → (Cell.run lost :: cells).flatMap Cell.split = template.cells ++ later →
      ∃ (lost' : List Piece) (cells' : List Cell),
        (Cell.run lost' :: cells').flatMap Cell.split = later ∧ Idle lost' cells' ∧
        Sealed depth cells' ∧
        ∀ outline rest after, outline.isClosed = false →
          Consumes cells' (outline.addAll template.items) rest after →
            Consumes cells outline rest after

section

variable {ifTrue ifFalse : Template} {depth : Nat} {cells later : List Cell}

/-- The content of a field in sealed cells, from behind its code up to the run that closes it. -/
lemma exists_content (htrue : ifTrue.ReadFrom) (hfalse : ifFalse.ReadFrom)
    (hsealed : Sealed (depth + 1) cells)
    (h : cells.flatMap Cell.split = ifTrue.cells ++ .run [.marker .elseMarker] ::
      (ifFalse.cells ++ .run [.marker .endMarker] :: later)) :
    ∃ (pieces : List Piece) (cells' : List Cell) (inner : Outline),
      (Cell.run pieces :: cells').flatMap Cell.split = later ∧
      (1 ≤ depth → Idle pieces cells') ∧ Sealed depth (.run pieces :: cells') ∧
      inner.ifTrue = ifTrue.items ∧ inner.ifFalse = ifFalse.items ∧
      Consumes cells {} cells' inner := by
  have hdepth : 1 ≤ depth + 1 := Nat.succ_le_succ (Nat.zero_le _)
  obtain ⟨lost, cells₁, hsplit₁, hidle, hsealed₁, hread₁⟩ :=
    htrue hdepth (Idle.nil cells) hsealed h
  have hbranch : ∀ cells' after,
      Consumes cells₁ { ifTrue := ifTrue.items } cells' after → Consumes cells {} cells' after := by
    intro cells' after hconsumes
    refine hread₁ _ _ _ rfl ?_
    rw [Outline.addAll_true, List.nil_append]
    exact hconsumes
  rcases hidle with rfl | ⟨rfl, hnext⟩
  · -- The `%else%` is read, and the false branch after it.
    rw [split_run_nil] at hsplit₁
    obtain ⟨n, pieces₂, cells₂, rfl, hsplit₂⟩ := exists_run_of_split hsplit₁
    rw [sealed_replicate] at hsealed₁
    obtain ⟨lost₃, cells₃, hsplit₃, hidle₃, hsealed₃, hread₃⟩ :=
      @hfalse _ [] _ _ hdepth (Idle.nil _) hsealed₁.behind hsplit₂
    obtain rfl : lost₃ = [] := hidle₃.eq_nil hsplit₃ (by simp)
    rw [split_run_nil] at hsplit₃
    obtain ⟨pieces, cells', hlater, hidle', hsealed', hclose⟩ := exists_closing hsealed₃ hsplit₃
    refine ⟨pieces, cells', (Outline.inFalse ifTrue.items ifFalse.items).closed, hlater, hidle',
      hsealed', rfl, rfl, hbranch _ _ ?_⟩
    rw [consumes_replicate rfl, consumes_piece_iff rfl rfl rfl]
    refine hread₃ (Outline.inFalse ifTrue.items []) _ _ rfl ?_
    rw [Outline.addAll_inFalse, List.nil_append]
    exact hclose _ rfl
  · -- The `%else%` is lost, but there is no false branch to lose.
    have hsplit₂ : cells₁.flatMap Cell.split =
        ifFalse.cells ++ .run [.marker .endMarker] :: later := (List.cons.inj hsplit₁).2
    rw [hsplit₂] at hnext
    cases ifFalse with
    | text content tail => cases hnext
    | field condition ifTrue' ifFalse' tail => cases hnext
    | nil =>
      obtain ⟨pieces, cells', hlater, hidle', hsealed', hclose⟩ := exists_closing hsealed₁ hsplit₂
      exact ⟨pieces, cells', _, hlater, hidle', hsealed', rfl, rfl, hbranch _ _ (hclose _ rfl)⟩

theorem readFrom (template : Template) : template.ReadFrom := by
  induction template with
  | nil =>
    intro depth lost cells later hdepth hidle hsealed h
    exact ⟨lost, cells, h, hidle, hsealed, fun _ _ _ _ hrest => hrest⟩
  | text content tail ih =>
    intro depth lost cells later hdepth hidle hsealed h
    obtain rfl : lost = [] := hidle.eq_nil h (by simp)
    rw [split_run_nil] at h
    obtain ⟨n, pieces, cells₁, rfl, hsplit₁⟩ := exists_run_of_split h
    rw [sealed_replicate] at hsealed
    obtain ⟨lost', cells', hsplit, hidle', hsealed', hread⟩ :=
      @ih _ [] _ _ hdepth (Idle.nil _) hsealed.behind hsplit₁
    refine ⟨lost', cells', hsplit, hidle', hsealed', fun outline rest after hopen hrest => ?_⟩
    have hpiece : outline.piece? (.text content.toList) = some (outline.add (.text content)) := by
      simp [Outline.piece?, hopen]
    have hnext : (outline.add (.text content)).isClosed = false := by simp [hopen]
    rw [consumes_replicate hopen, consumes_piece_iff hopen hpiece hnext]
    exact hread _ _ _ hnext hrest
  | field condition ifTrue ifFalse tail ihTrue ihFalse ihRest =>
    intro depth lost cells later hdepth hidle hsealed h
    simp only [Template.cells, List.cons_append, List.append_assoc] at h
    obtain rfl : lost = [] := hidle.eq_nil h (by simp)
    rw [split_run_nil] at h
    obtain ⟨n, cells₁, rfl, hsplit₁⟩ := exists_field_of_split h
    rw [sealed_replicate] at hsealed
    obtain ⟨pieces, cells₂, inner, hsplit₂, hidle₂, hsealed₂, htrue, hfalse, hcontent⟩ :=
      exists_content ihTrue ihFalse hsealed hsplit₁
    have hbehind : Sealed depth cells₂ := by
      have hrest := hsealed₂.2
      rwa [(hidle₂ hdepth).foldl_depthAfter] at hrest
    obtain ⟨lost', cells', hsplit, hidle', hsealed', hread⟩ :=
      ihRest hdepth (hidle₂ hdepth) hbehind hsplit₂
    refine ⟨lost', cells', hsplit, hidle', hsealed', fun outline rest after hopen hrest => ?_⟩
    rw [consumes_replicate hopen, consumes_field_iff hopen]
    refine ⟨cells₂, inner, hcontent, hread _ _ _ ?_ ?_⟩
    · rw [Outline.isClosed_add, hopen]
    · rw [Outline.field, htrue, hfalse]
      exact hrest

/-- Sealed cells of a template have the fields of the template. -/
theorem found_of_sealed (template : Template) {cells : List Cell} (hsealed : Sealed 0 cells)
    (h : cells.flatMap Cell.split = template.cells) : Found cells template.fields := by
  induction template generalizing cells with
  | nil =>
    obtain ⟨n, rfl⟩ := eq_replicate_of_split h
    have hnil : Found (List.replicate n (.run []) ++ []) [] := found_replicate.2 .nil
    rwa [List.append_nil] at hnil
  | text content tail ih =>
    obtain ⟨n, pieces, cells₁, rfl, hsplit₁⟩ := exists_run_of_split h
    rw [sealed_replicate] at hsealed
    rw [found_replicate, found_run_iff]
    exact found_run_iff.1 (ih hsealed.behind hsplit₁)
  | field condition ifTrue ifFalse tail _ _ ihRest =>
    obtain ⟨n, cells₁, rfl, hsplit₁⟩ := exists_field_of_split h
    rw [sealed_replicate] at hsealed
    obtain ⟨pieces, cells₂, inner, hsplit₂, -, hsealed₂, htrue, hfalse, hcontent⟩ :=
      exists_content ifTrue.readFrom ifFalse.readFrom hsealed hsplit₁
    rw [found_replicate]
    refine found_field_iff.2 ⟨cells₂, inner, hcontent, ?_, ?_⟩
    · rw [Outline.field, htrue, hfalse]
    · exact found_run_iff.1 (ihRest hsealed₂ hsplit₂)

end

/-! ## The fields make the cells sealed -/

section

variable {ifTrue ifFalse : Template} {cells cells' later : List Cell}

/-- Pieces without a closing marker leave cells behind them sealed. -/
lemma sealed_run_of_balance {depth : Nat} {pieces : List Piece}
    (hpieces : (Cell.run pieces).balance = 0) (h : Sealed depth cells) :
    Sealed depth (.run pieces :: cells) := by
  induction pieces with
  | nil => exact ⟨trivial, h⟩
  | cons piece pieces ih =>
    by_cases hpiece : piece = .marker .endMarker
    · have hothers := balance_run_nonpos pieces
      rw [hpiece, balance_endMarker_cons] at hpieces
      omega
    · rw [balance_piece_cons hpiece] at hpieces
      exact (ih hpieces).push hpiece

/-- Pieces without a closing marker do not begin with one. -/
lemma eq_nil_of_balance {lost : List Piece} (hlost : (Cell.run lost).balance = 0)
    (h : (Cell.run lost :: cells).flatMap Cell.split = .run [.marker .endMarker] :: later) :
    lost = [] := by
  cases lost with
  | nil => rfl
  | cons piece lost =>
    obtain ⟨hpiece, -⟩ := List.cons.inj h
    cases hpiece
    have hothers := balance_run_nonpos lost
    rw [balance_endMarker_cons] at hlost
    omega

/-- The run that closes a field does not swallow another closing marker if the cells that were
consumed have no other marker to spare. -/
lemma closing_of_consumes {outline inner : Outline} (htight : balance cells' ≤ balance cells + 1)
    (hopen : outline.isClosed = false)
    (h : cells.flatMap Cell.split = .run [.marker .endMarker] :: later)
    (hconsumes : Consumes cells outline cells' inner) :
    inner = outline.closed ∧ ∃ pieces : List Piece,
      (Cell.run pieces :: cells').flatMap Cell.split = later ∧ (Cell.run pieces).balance = 0 ∧
      ∀ depth, (1 ≤ depth → Idle pieces cells') → Sealed depth cells' →
        Sealed (depth + 1) cells := by
  obtain ⟨n, pieces, cells₁, rfl, hlater⟩ := exists_run_of_split h
  rw [consumes_replicate hopen, consumes_endMarker_iff hopen] at hconsumes
  obtain ⟨rfl, rfl⟩ := hconsumes
  have hnonpos := balance_run_nonpos pieces
  rw [balance_append, balance_replicate, balance_cons, balance_endMarker_cons] at htight
  have hpieces : (Cell.run pieces).balance = 0 := by omega
  refine ⟨rfl, pieces, hlater, hpieces, fun depth hidle hsealed => ?_⟩
  obtain ⟨hrun, hcells⟩ := sealed_run_of_balance hpieces hsealed
  rw [sealed_replicate]
  exact ⟨⟨fun _ hdepth => hidle (Nat.le_of_succ_le_succ hdepth), hrun⟩, hcells⟩

end

/-- Whether a field that consumes the cells of a template, behind lost pieces and with no closing
marker to spare, gets an item of the template from each text and field that is not lost; it gets all
of them only if the lost pieces are idle and the cells sealed. -/
def ReadBack (template : Template) : Prop :=
  ∀ {lost : List Piece} {cells later rest : List Cell} {outline after : Outline},
    (Cell.run lost).balance = 0 → balance rest ≤ balance cells + 1 → outline.isClosed = false →
    (Cell.run lost :: cells).flatMap Cell.split = template.cells ++ later →
    Consumes cells outline rest after →
      ∃ (lost' : List Piece) (cells' : List Cell) (items : List BranchItem),
        (Cell.run lost' :: cells').flatMap Cell.split = later ∧ (Cell.run lost').balance = 0 ∧
        balance cells' = balance cells ∧ Consumes cells' (outline.addAll items) rest after ∧
        items.length ≤ template.items.length ∧
        (items = template.items → ∀ depth, 1 ≤ depth → Idle lost' cells' → Sealed depth cells' →
          Idle lost cells ∧ Sealed depth cells)

section

variable {ifTrue ifFalse : Template} {cells cells' later : List Cell} {inner : Outline}

/-- What a field has consumed as its last branch, with the run that closes it. -/
lemma lastBranch_of_consumes {template : Template} (hread : template.ReadBack) {lost : List Piece}
    {outline : Outline} (hlost : (Cell.run lost).balance = 0)
    (htight : balance cells' ≤ balance cells + 1) (hopen : outline.isClosed = false)
    (h : (Cell.run lost :: cells).flatMap Cell.split =
      template.cells ++ .run [.marker .endMarker] :: later)
    (hconsumes : Consumes cells outline cells' inner) :
    ∃ (items : List BranchItem) (pieces : List Piece), inner = (outline.addAll items).closed ∧
      (Cell.run pieces :: cells').flatMap Cell.split = later ∧ (Cell.run pieces).balance = 0 ∧
      items.length ≤ template.items.length ∧
      (items = template.items → ∀ depth, (1 ≤ depth → Idle pieces cells') → Sealed depth cells' →
        Idle lost cells ∧ Sealed (depth + 1) cells) := by
  obtain ⟨lost', cells₁, items, hsplit, hlost', hbalance, hconsumes', hlength, hsealed⟩ :=
    hread hlost htight hopen h hconsumes
  obtain rfl : lost' = [] := eq_nil_of_balance hlost' hsplit
  rw [split_run_nil] at hsplit
  have htight' : balance cells' ≤ balance cells₁ + 1 := by omega
  have hopen' : (outline.addAll items).isClosed = false := by rw [Outline.isClosed_addAll, hopen]
  obtain ⟨hinner, pieces, hlater, hpieces, hclose⟩ :=
    closing_of_consumes htight' hopen' hsplit hconsumes'
  refine ⟨items, pieces, hinner, hlater, hpieces, hlength, fun hitems depth hidle hbehind => ?_⟩
  exact hsealed hitems (depth + 1) (Nat.succ_le_succ (Nat.zero_le depth)) (Idle.nil cells₁)
    (hclose depth hidle hbehind)

/-- What a field has consumed from its `%else%` on, where this marker is read. -/
lemma elseRead_of_consumes (hfalse : ifFalse.ReadBack) {itemsTrue : List BranchItem}
    (htight : balance cells' ≤ balance cells + 1)
    (h : cells.flatMap Cell.split =
      .run [.marker .elseMarker] :: (ifFalse.cells ++ .run [.marker .endMarker] :: later))
    (hconsumes : Consumes cells { ifTrue := itemsTrue } cells' inner) :
    ∃ pieces : List Piece, (Cell.run pieces :: cells').flatMap Cell.split = later ∧
      (Cell.run pieces).balance = 0 ∧ inner.ifTrue = itemsTrue ∧
      (inner.ifFalse = ifFalse.items → ∀ depth, (1 ≤ depth → Idle pieces cells') →
        Sealed depth cells' → Sealed (depth + 1) cells) := by
  obtain ⟨n, pieces₁, cells₁, rfl, hsplit₁⟩ := exists_run_of_split h
  rw [balance_append, balance_replicate, balance_cons, balance_piece_cons (by simp)] at htight
  rw [consumes_replicate rfl, consumes_piece_iff rfl rfl rfl] at hconsumes
  have htight₁ : balance cells' ≤ balance (.run pieces₁ :: cells₁) + 1 := by
    rw [balance_cons]
    omega
  have hbranch : Consumes (.run pieces₁ :: cells₁) (.inFalse itemsTrue []) cells' inner :=
    hconsumes
  obtain ⟨itemsFalse, pieces, rfl, hlater, hpieces, -, hsealed⟩ :=
    @lastBranch_of_consumes _ _ _ _ _ hfalse [] _ balance_run_nil htight₁ rfl hsplit₁ hbranch
  rw [Outline.addAll_inFalse, List.nil_append]
  refine ⟨pieces, hlater, hpieces, rfl, fun hitems depth hidle hbehind => ?_⟩
  obtain ⟨-, hrest⟩ := hsealed hitems depth hidle hbehind
  rw [sealed_replicate]
  exact hrest.push (by simp)

/-- What a field has consumed from its `%else%` on, where this marker is lost: it can have all items
only if there is no false branch to lose. -/
lemma elseLost_of_consumes (hfalse : ifFalse.ReadBack) {lost : List Piece}
    {itemsTrue : List BranchItem} (hlost : (Cell.run lost).balance = 0)
    (htight : balance cells' ≤ balance cells + 1)
    (h : (Cell.run lost :: cells).flatMap Cell.split =
      ifFalse.cells ++ .run [.marker .endMarker] :: later)
    (hconsumes : Consumes cells { ifTrue := itemsTrue } cells' inner) :
    ∃ pieces : List Piece, (Cell.run pieces :: cells').flatMap Cell.split = later ∧
      (Cell.run pieces).balance = 0 ∧
      (inner.ifFalse = ifFalse.items → inner.ifTrue = itemsTrue ∧
        Idle (.marker .elseMarker :: lost) cells ∧ ∀ depth, (1 ≤ depth → Idle pieces cells') →
          Sealed depth cells' → Sealed (depth + 1) cells) := by
  obtain ⟨itemsFalse, pieces, rfl, hlater, hpieces, hlength, hsealed⟩ :=
    lastBranch_of_consumes hfalse hlost htight rfl h hconsumes
  rw [Outline.addAll_true]
  refine ⟨pieces, hlater, hpieces, fun hitems => ?_⟩
  obtain rfl : ifFalse = .nil := eq_nil_of_items hitems.symm
  obtain rfl : itemsFalse = [] := List.eq_nil_of_length_eq_zero (Nat.le_zero.1 hlength)
  have hend : (Cell.run lost :: cells).flatMap Cell.split = .run [.marker .endMarker] :: later := h
  obtain rfl : lost = [] := eq_nil_of_balance hlost hend
  refine ⟨List.append_nil itemsTrue, .inr ⟨rfl, ?_⟩, fun depth hidle hbehind => ?_⟩
  · rw [← split_run_nil, hend, List.head?_cons]
  · exact (hsealed rfl depth hidle hbehind).2

/-- What a field has consumed as its content: if it has all items, the cells are sealed. -/
lemma content_of_consumes (htrue : ifTrue.ReadBack) (hfalse : ifFalse.ReadBack)
    (htight : balance cells' ≤ balance cells + 1)
    (h : cells.flatMap Cell.split = ifTrue.cells ++ .run [.marker .elseMarker] ::
      (ifFalse.cells ++ .run [.marker .endMarker] :: later))
    (hconsumes : Consumes cells {} cells' inner) :
    ∃ pieces : List Piece, (Cell.run pieces :: cells').flatMap Cell.split = later ∧
      (Cell.run pieces).balance = 0 ∧
      (inner.ifTrue = ifTrue.items → inner.ifFalse = ifFalse.items → ∀ depth,
        (1 ≤ depth → Idle pieces cells') → Sealed depth cells' → Sealed (depth + 1) cells) := by
  obtain ⟨lost, cells₁, items, hsplit₁, hlost, hbalance, hconsumes₁, -, hsealed₁⟩ :=
    @htrue [] _ _ _ _ _ balance_run_nil htight rfl h hconsumes
  rw [Outline.addAll_true, List.nil_append] at hconsumes₁
  have htight₁ : balance cells' ≤ balance cells₁ + 1 := by omega
  cases lost with
  | nil =>
    rw [split_run_nil] at hsplit₁
    obtain ⟨pieces, hlater, hpieces, rfl, hsealed⟩ :=
      elseRead_of_consumes hfalse htight₁ hsplit₁ hconsumes₁
    refine ⟨pieces, hlater, hpieces, fun hitemsTrue hitemsFalse depth hidle hbehind => ?_⟩
    exact (hsealed₁ hitemsTrue (depth + 1) (Nat.le_add_left 1 depth) (Idle.nil cells₁)
      (hsealed hitemsFalse depth hidle hbehind)).2
  | cons piece lost =>
    obtain ⟨hpiece, hsplit₂⟩ := List.cons.inj hsplit₁
    cases hpiece
    rw [balance_piece_cons (by simp)] at hlost
    obtain ⟨pieces, hlater, hpieces, hsealed⟩ :=
      elseLost_of_consumes hfalse hlost htight₁ hsplit₂ hconsumes₁
    refine ⟨pieces, hlater, hpieces, fun hitemsTrue hitemsFalse depth hidle hbehind => ?_⟩
    obtain ⟨rfl, hidle₁, hcells₁⟩ := hsealed hitemsFalse
    exact (hsealed₁ hitemsTrue (depth + 1) (Nat.le_add_left 1 depth) hidle₁
      (hcells₁ depth hidle hbehind)).2

/-! ### Item by item -/

namespace ReadBack

variable {tail : Template}

lemma nil : Template.nil.ReadBack := by
  intro lost cells later rest outline after hlost htight hopen h hconsumes
  exact ⟨lost, cells, [], h, hlost, rfl, hconsumes, Nat.le_refl 0,
    fun _ depth _ hidle hsealed => ⟨hidle, hsealed⟩⟩

lemma text (htail : tail.ReadBack) (content : String) : (Template.text content tail).ReadBack := by
  intro lost cells later rest outline after hlost htight hopen h hconsumes
  cases lost with
  | nil =>
    obtain ⟨n, pieces, cells₁, rfl, hsplit₁⟩ := exists_run_of_split ((split_run_nil).symm.trans h)
    have hpiece : outline.piece? (.text content.toList) = some (outline.add (.text content)) := by
      simp [Outline.piece?, hopen]
    have hnext : (outline.add (.text content)).isClosed = false := by
      rw [Outline.isClosed_add, hopen]
    rw [consumes_replicate hopen, consumes_piece_iff hopen hpiece hnext] at hconsumes
    rw [balance_append, balance_replicate, balance_cons, balance_piece_cons (by simp)] at htight ⊢
    have htight₁ : balance rest ≤ balance (.run pieces :: cells₁) + 1 := by
      rw [balance_cons]
      omega
    obtain ⟨lost', cells', items, hsplit, hlost', hbalance, hconsumes', hlength, hsealed⟩ :=
      @htail [] _ _ _ _ _ hlost htight₁ hnext hsplit₁ hconsumes
    refine ⟨lost', cells', .text content :: items, hsplit, hlost', ?_, hconsumes',
      Nat.succ_le_succ hlength, fun hitems depth hdepth hidle hrest => ⟨Idle.nil _, ?_⟩⟩
    · rw [hbalance, balance_cons]
      omega
    · obtain ⟨-, hbehind⟩ := hsealed (List.cons.inj hitems).2 depth hdepth hidle hrest
      rw [sealed_replicate]
      exact hbehind.push (by simp)
  | cons piece lost =>
    obtain ⟨hpiece, hsplit₁⟩ := List.cons.inj h
    cases hpiece
    rw [balance_piece_cons (by simp)] at hlost
    obtain ⟨lost', cells', items, hsplit, hlost', hbalance, hconsumes', hlength, -⟩ :=
      htail hlost htight hopen hsplit₁ hconsumes
    refine ⟨lost', cells', items, hsplit, hlost', hbalance, hconsumes',
      Nat.le_succ_of_le hlength, fun hitems => ?_⟩
    -- An item is missing, so not all of them are there.
    rw [hitems] at hlength
    exact absurd hlength (Nat.not_succ_le_self _)

lemma field (htrue : ifTrue.ReadBack) (hfalse : ifFalse.ReadBack) (htail : tail.ReadBack)
    (condition : Condition) : (Template.field condition ifTrue ifFalse tail).ReadBack := by
  intro lost cells later rest outline after hlost htight hopen h hconsumes
  simp only [Template.cells, List.cons_append, List.append_assoc] at h
  cases lost with
  | cons piece lost =>
    obtain ⟨hpiece, -⟩ := List.cons.inj h
    cases hpiece
  | nil =>
    obtain ⟨n, cells₁, rfl, hsplit₁⟩ := exists_field_of_split ((split_run_nil).symm.trans h)
    rw [consumes_replicate hopen, consumes_field_iff hopen] at hconsumes
    obtain ⟨cells₂, inner, hcontent, hnext⟩ := hconsumes
    have hopen' : (outline.add (.field (inner.field condition))).isClosed = false := by
      rw [Outline.isClosed_add, hopen]
    have hcontentBalance := hcontent.balance_lt rfl
    have hnextBalance := hnext.balance_lt hopen'
    rw [balance_append, balance_replicate, balance_cons, Cell.balance] at htight ⊢
    obtain ⟨pieces, hsplit₂, hpieces, hsealed₂⟩ :=
      content_of_consumes htrue hfalse (by omega) hsplit₁ hcontent
    obtain ⟨lost', cells', items, hsplit, hlost', hbalance, hconsumes', hlength, hsealed⟩ :=
      htail hpieces (by omega) hopen' hsplit₂ hnext
    refine ⟨lost', cells', .field (inner.field condition) :: items, hsplit, hlost', by omega,
      hconsumes', Nat.succ_le_succ hlength,
      fun hitems depth hdepth hidle hrest => ⟨Idle.nil _, ?_⟩⟩
    obtain ⟨hfield, hitems⟩ := List.cons.inj hitems
    simp only [Outline.field, BranchItem.field.injEq, IfField.mk.injEq, true_and] at hfield
    obtain ⟨hidle₂, hcells₂⟩ := hsealed hitems depth hdepth hidle hrest
    rw [sealed_replicate]
    exact hsealed₂ (Branch.ofItems_injective hfield.1) (Branch.ofItems_injective hfield.2) depth
      (fun _ => hidle₂) hcells₂

end ReadBack

theorem readBack (template : Template) : template.ReadBack := by
  induction template with
  | nil => exact ReadBack.nil
  | text content tail ih => exact ReadBack.text ih content
  | field condition ifTrue ifFalse tail ihTrue ihFalse ihRest =>
    exact ReadBack.field ihTrue ihFalse ihRest condition

end

/-- Cells of a template that have the fields of the template are sealed. -/
theorem sealed_of_found (template : Template) {lost : List Piece} {cells : List Cell}
    (h : (Cell.run lost :: cells).flatMap Cell.split = template.cells)
    (hfound : Found cells template.fields) : Sealed 0 cells := by
  induction template generalizing lost cells with
  | nil =>
    obtain ⟨-, hcells⟩ := List.append_eq_nil_iff.1 h
    obtain ⟨n, rfl⟩ := eq_replicate_of_split hcells
    rw [← List.append_nil (List.replicate n _), sealed_replicate]
    trivial
  | text content tail ih =>
    cases lost with
    | cons piece lost => exact ih (List.cons.inj h).2 hfound
    | nil =>
      obtain ⟨n, pieces, cells₁, rfl, hsplit₁⟩ :=
        exists_run_of_split ((split_run_nil).symm.trans h)
      rw [found_replicate, found_run_iff] at hfound
      have hbalance := congrArg balance hsplit₁
      have hnonpos := hfound.balance_nonpos
      have hpieces := balance_run_nonpos pieces
      rw [balance_split, balance_cons, balance_cells] at hbalance
      have hbehind : Sealed 0 (.run pieces :: cells₁) :=
        sealed_run_of_balance (by omega) (ih hsplit₁ hfound)
      rw [sealed_replicate]
      exact hbehind.push (by simp)
  | field condition ifTrue ifFalse tail _ _ ihRest =>
    cases lost with
    | cons piece lost => cases (List.cons.inj h).1
    | nil =>
      have hbalance := congrArg balance h
      rw [split_run_nil, balance_split, balance_cells] at hbalance
      obtain ⟨n, cells₁, rfl, hsplit₁⟩ :=
        exists_field_of_split ((split_run_nil).symm.trans h)
      rw [found_replicate] at hfound
      obtain ⟨cells₂, inner, hcontent, hfield, hrest⟩ := found_field_iff.1 hfound
      have hnonpos := hrest.balance_nonpos
      rw [balance_append, balance_replicate, balance_cons, Cell.balance] at hbalance
      obtain ⟨pieces, hsplit₂, -, hsealed₂⟩ :=
        content_of_consumes ifTrue.readBack ifFalse.readBack (by omega) hsplit₁ hcontent
      simp only [Outline.field, IfField.mk.injEq, true_and] at hfield
      rw [sealed_replicate]
      apply hsealed₂ (Branch.ofItems_injective hfield.1) (Branch.ofItems_injective hfield.2)
      · intro hdepth
        exact absurd hdepth (Nat.not_succ_le_zero 0)
      · exact ihRest hsplit₂ hrest

/-- Joined cells of a template have its fields if and only if they are sealed. -/
theorem found_iff_sealed (template : Template) {cells : List Cell}
    (h : cells.flatMap Cell.split = template.cells) :
    Found cells template.fields ↔ Sealed 0 cells :=
  ⟨@sealed_of_found template [] cells h, fun hsealed => template.found_of_sealed hsealed h⟩

end Template

end WordFields
