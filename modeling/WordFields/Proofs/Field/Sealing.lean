import WordFields.Proofs.Field.Outline

/-!
# Pieces joined into runs

How a template is cut into runs does not matter to the fields that are read, with one exception.
A field is closed by a run, and what stands behind the closing marker in this run is not read any
more.  Behind a field that is not inside another there are only texts outside of all fields, so
nothing is lost.  Behind a field inside another it is content of the outer field that is lost, or
one of its markers.  `Sealed` says that nothing is lost but perhaps the `%else%` of a false branch
without content, and `Template.found_iff_sealed` that this is the condition under which joined cells
have the fields of their template.

That the condition suffices is shown along the template.  For the converse `balance` counts the
fields and the markers that close them: where every field is closed, no closing marker is lost.  So
only texts and `%else%` can be, and a lost text is missed in its branch.
-/

namespace WordFields

/-! ## Outlines -/

namespace Outline

variable {outline next : Outline} {piece : Piece}

/-- Adds items to the branch that is being read. -/
def addAll (outline : Outline) (items : List BranchItem) : Outline :=
  items.foldl add outline

@[simp] lemma isClosed_add (outline : Outline) (item : BranchItem) :
    (outline.add item).isClosed = outline.isClosed := by
  unfold add
  split <;> rfl

@[simp] lemma isClosed_addAll (outline : Outline) (items : List BranchItem) :
    (outline.addAll items).isClosed = outline.isClosed := by
  induction items generalizing outline with
  | nil => rfl
  | cons item items ih => exact (ih (outline.add item)).trans (isClosed_add outline item)

lemma addAll_true (ifTrue items : List BranchItem) :
    ({ ifTrue } : Outline).addAll items = { ifTrue := ifTrue ++ items } := by
  induction items generalizing ifTrue with
  | nil => simp [addAll]
  | cons item items ih =>
    have hrest := ih (ifTrue ++ [item])
    simpa [addAll, add] using hrest

/-- The content of a field in front of its false branch, and in that branch. -/
def inFalse (ifTrue ifFalse : List BranchItem) : Outline :=
  { inTrue := false, seenElse := true, ifTrue, ifFalse }

lemma addAll_inFalse (ifTrue ifFalse items : List BranchItem) :
    (inFalse ifTrue ifFalse).addAll items = inFalse ifTrue (ifFalse ++ items) := by
  induction items generalizing ifFalse with
  | nil => simp [addAll]
  | cons item items ih =>
    have hrest := ih (ifFalse ++ [item])
    simpa [addAll, add, inFalse] using hrest

lemma isClosed_of_endMarker (h : outline.piece? (.marker .endMarker) = some next) :
    next.isClosed = true := by
  unfold piece? at h
  split at h
  next hclosed =>
    cases h
    exact hclosed
  next =>
    cases h
    rfl

lemma isOpen_of_ne_endMarker (hopen : outline.isClosed = false)
    (h : outline.piece? piece = some next) (hpiece : piece ≠ .marker .endMarker) : next.isClosed = false := by
  cases piece with
  | text content =>
    simp only [piece?, hopen, Bool.false_eq_true, if_false, Option.some.injEq] at h
    rw [← h, isClosed_add, hopen]
  | marker marker =>
    cases marker with
    | endMarker => exact absurd rfl hpiece
    | elseMarker =>
      simp only [piece?, hopen, Bool.false_eq_true, if_false, Option.ite_none_left_eq_some,
        Option.some.injEq] at h
      rw [← h.2]

/-- In a field that is closed no piece means anything. -/
lemma pieces?_of_isClosed (h : outline.isClosed = true) (pieces : List Piece) :
    outline.pieces? pieces = some outline := by
  induction pieces with
  | nil => rfl
  | cons piece pieces ih => simp [pieces?, piece?, h, ih]

end Outline

/-! ## Joined cells -/

/-- The cells of the pieces of a cell, with a run for each. -/
def Cell.split : Cell → List Cell
  | .field condition => [.field condition]
  | .run pieces => pieces.map fun piece => .run [piece]

/-- The number of fields that are open behind a piece. -/
def Piece.depthAfter (depth : Nat) : Piece → Nat
  | .marker .endMarker => depth - 1
  | _ => depth

/-- Whether pieces mean nothing to a field that is read on from some cells: there are none, or
there is just the `%else%` of a false branch without content. -/
def Idle (pieces : List Piece) (cells : List Cell) : Prop :=
  pieces = [] ∨ pieces = [.marker .elseMarker] ∧
    (cells.flatMap Cell.split).head? = some (.run [.marker .endMarker])

/-- Whether in a run of pieces those behind a marker that closes a field inside another are idle;
`depth` is the number of fields that are open before the run. -/
def SealedRun (cells : List Cell) : Nat → List Piece → Prop
  | _, [] => True
  | depth, piece :: pieces =>
    (piece = .marker .endMarker → 2 ≤ depth → Idle pieces cells) ∧
      SealedRun cells (piece.depthAfter depth) pieces

/-- The same for all runs of some cells. -/
def Sealed : Nat → List Cell → Prop
  | _, [] => True
  | depth, .field _ :: cells => Sealed (depth + 1) cells
  | depth, .run pieces :: cells =>
    SealedRun cells depth pieces ∧ Sealed (pieces.foldl Piece.depthAfter depth) cells

section

variable {cells rest : List Cell} {outline after : Outline}

@[simp] lemma sealed_replicate {depth n : Nat} :
    Sealed depth (List.replicate n (.run []) ++ cells) ↔ Sealed depth cells := by
  induction n with
  | zero => rfl
  | succ n ih =>
    rw [List.replicate_succ, List.cons_append, Sealed, List.foldl_nil, ih]
    exact and_iff_right trivial

/-- What is left of a run behind its first piece is sealed as well. -/
lemma Sealed.behind {depth : Nat} {piece : Piece} {pieces : List Piece}
    (h : Sealed depth (.run (piece :: pieces) :: cells)) :
    Sealed (piece.depthAfter depth) (.run pieces :: cells) :=
  ⟨h.1.2, h.2⟩

lemma Piece.depthAfter_of_ne {piece : Piece} (h : piece ≠ .marker .endMarker) (depth : Nat) :
    piece.depthAfter depth = depth := by
  cases piece with
  | text content => rfl
  | marker marker =>
    cases marker with
    | elseMarker => rfl
    | endMarker => exact absurd rfl h

/-- A piece that closes no field may be put in front of a run. -/
lemma Sealed.push {depth : Nat} {piece : Piece} {pieces : List Piece}
    (hpiece : piece ≠ .marker .endMarker) (h : Sealed depth (.run pieces :: cells)) :
    Sealed depth (.run (piece :: pieces) :: cells) := by
  obtain ⟨hrun, hcells⟩ := h
  refine ⟨⟨fun hend => absurd hend hpiece, ?_⟩, ?_⟩
  · rw [Piece.depthAfter_of_ne hpiece]
    exact hrun
  · rw [List.foldl_cons, Piece.depthAfter_of_ne hpiece]
    exact hcells

/-! ## Reading joined cells -/

lemma consumes_run_iff {pieces : List Piece} (hopen : outline.isClosed = false) :
    Consumes (.run pieces :: cells) outline rest after ↔
      ∃ read, outline.pieces? pieces = some read ∧ Consumes cells read rest after := by
  constructor
  · intro h
    cases h with
    | closed isClosed =>
      rw [hopen] at isClosed
      cases isClosed
    | run _ reads next => exact ⟨_, reads, next⟩
  · rintro ⟨read, hreads, hnext⟩
    exact .run hopen hreads hnext

lemma consumes_field_iff {condition : Condition} (hopen : outline.isClosed = false) :
    Consumes (.field condition :: cells) outline rest after ↔
      ∃ cells' inner, Consumes cells {} cells' inner ∧
        Consumes cells' (outline.add (.field (inner.field condition))) rest after := by
  constructor
  · intro h
    cases h with
    | closed isClosed =>
      rw [hopen] at isClosed
      cases isClosed
    | field _ content next => exact ⟨_, _, content, next⟩
  · rintro ⟨cells', inner, hcontent, hnext⟩
    exact .field hopen hcontent hnext

@[simp] lemma found_run_iff {pieces : List Piece} {fields : List IfField} :
    Found (.run pieces :: cells) fields ↔ Found cells fields := by
  constructor
  · intro h
    cases h with
    | run next => exact next
  · exact .run

lemma found_field_iff {condition : Condition} {field : IfField} {fields : List IfField} :
    Found (.field condition :: cells) (field :: fields) ↔
      ∃ cells' inner, Consumes cells {} cells' inner ∧ inner.field condition = field ∧
        Found cells' fields := by
  constructor
  · intro h
    cases h with
    | field content next => exact ⟨_, _, content, rfl, next⟩
  · rintro ⟨cells', inner, hcontent, rfl, hnext⟩
    exact .field hcontent hnext

lemma consumes_replicate {n : Nat} (hopen : outline.isClosed = false) :
    Consumes (List.replicate n (.run []) ++ cells) outline rest after ↔
      Consumes cells outline rest after := by
  induction n with
  | zero => rfl
  | succ n ih =>
    rw [List.replicate_succ, List.cons_append, consumes_run_iff hopen, ← ih]
    simp [Outline.pieces?]

@[simp] lemma found_replicate {n : Nat} {fields : List IfField} :
    Found (List.replicate n (.run []) ++ cells) fields ↔ Found cells fields := by
  induction n with
  | zero => rfl
  | succ n ih => rw [List.replicate_succ, List.cons_append, found_run_iff, ih]

lemma consumes_of_isClosed (h : outline.isClosed = true) :
    Consumes cells outline rest after ↔ rest = cells ∧ after = outline := by
  constructor
  · intro hconsumes
    cases hconsumes with
    | closed _ => exact ⟨rfl, rfl⟩
    | field isOpen _ _ =>
      rw [h] at isOpen
      cases isOpen
    | run isOpen _ _ =>
      rw [h] at isOpen
      cases isOpen
  · rintro ⟨rfl, rfl⟩
    exact .closed h

/-- A run may be read from its second piece on. -/
lemma consumes_piece_iff {piece : Piece} {pieces : List Piece} {next : Outline}
    (hopen : outline.isClosed = false) (hpiece : outline.piece? piece = some next)
    (hnext : next.isClosed = false) :
    Consumes (.run (piece :: pieces) :: cells) outline rest after ↔
      Consumes (.run pieces :: cells) next rest after := by
  rw [consumes_run_iff hopen, consumes_run_iff hnext, Outline.pieces?, hpiece, Option.bind_some]

/-- The run that closes a field is read to its end. -/
lemma consumes_endMarker_iff {pieces : List Piece} (hopen : outline.isClosed = false) :
    Consumes (.run (.marker .endMarker :: pieces) :: cells) outline rest after ↔
      rest = cells ∧ after = { outline with isClosed := true } := by
  have hpiece : outline.piece? (.marker .endMarker) = some { outline with isClosed := true } := by
    simp [Outline.piece?, hopen]
  rw [consumes_run_iff hopen, Outline.pieces?, hpiece, Option.bind_some,
    Outline.pieces?_of_isClosed rfl]
  simp [consumes_of_isClosed]

end

/-! ## The next piece -/

section

variable {cells later : List Cell}

lemma split_run_nil : (Cell.run [] :: cells).flatMap Cell.split = cells.flatMap Cell.split :=
  rfl

/-- The next cell of some split cells is the first one of a cell of them, runs without pieces
aside. -/
lemma exists_of_split {cell : Cell} (h : cells.flatMap Cell.split = cell :: later) :
    ∃ (n : Nat) (first : Cell) (others cells' : List Cell),
      cells = List.replicate n (.run []) ++ first :: cells' ∧ first.split = cell :: others ∧
        others ++ cells'.flatMap Cell.split = later := by
  induction cells with
  | nil => cases h
  | cons first cells ih =>
    rw [List.flatMap_cons] at h
    cases hsplit : first.split with
    | nil =>
      rw [hsplit] at h
      obtain ⟨n, first', others, cells', rfl, hfirst, hlater⟩ := ih h
      have hempty : first = .run [] := by
        cases first with
        | field condition => cases hsplit
        | run pieces => rw [List.map_eq_nil_iff.1 hsplit]
      exact ⟨n + 1, first', others, cells', by rw [hempty]; rfl, hfirst, hlater⟩
    | cons cell' others =>
      rw [hsplit] at h
      obtain ⟨rfl, hlater⟩ := List.cons.inj h
      exact ⟨0, first, others, cells, rfl, hsplit, hlater⟩

lemma exists_run_of_split {piece : Piece} (h : cells.flatMap Cell.split = .run [piece] :: later) :
    ∃ (n : Nat) (pieces : List Piece) (cells' : List Cell),
      cells = List.replicate n (.run []) ++ .run (piece :: pieces) :: cells' ∧
        (.run pieces :: cells').flatMap Cell.split = later := by
  obtain ⟨n, first, others, cells', rfl, hfirst, hlater⟩ := exists_of_split h
  cases first with
  | field condition => cases hfirst
  | run pieces =>
    obtain ⟨piece', pieces, rfl, hpiece, rfl⟩ := List.map_eq_cons_iff.1 hfirst
    cases hpiece
    exact ⟨n, pieces, cells', rfl, hlater⟩

lemma exists_field_of_split {condition : Condition}
    (h : cells.flatMap Cell.split = .field condition :: later) :
    ∃ (n : Nat) (cells' : List Cell),
      cells = List.replicate n (.run []) ++ .field condition :: cells' ∧
        cells'.flatMap Cell.split = later := by
  obtain ⟨n, first, others, cells', rfl, hfirst, hlater⟩ := exists_of_split h
  cases first with
  | field condition' =>
    cases hfirst
    exact ⟨n, cells', rfl, hlater⟩
  | run pieces =>
    obtain ⟨piece, pieces, rfl, hpiece, -⟩ := List.map_eq_cons_iff.1 hfirst
    cases hpiece

lemma eq_replicate_of_split (h : cells.flatMap Cell.split = []) :
    ∃ n, cells = List.replicate n (.run []) := by
  induction cells with
  | nil => exact ⟨0, rfl⟩
  | cons cell cells ih =>
    rw [List.flatMap_cons, List.append_eq_nil_iff] at h
    obtain ⟨n, rfl⟩ := ih h.2
    cases cell with
    | field condition => cases h.1
    | run pieces =>
      obtain rfl := List.map_eq_nil_iff.1 h.1
      exact ⟨n + 1, rfl⟩

end

/-! ## Counting -/

/-- What a cell adds to the number of open fields. -/
def Cell.balance : Cell → Int
  | .field _ => 1
  | .run pieces => -(pieces.count (.marker .endMarker) : Int)

def balance : List Cell → Int
  | [] => 0
  | cell :: cells => cell.balance + balance cells

section

variable {cells cells' rest : List Cell} {outline after : Outline}

@[simp] lemma balance_nil : balance [] = 0 :=
  rfl

@[simp] lemma balance_cons (cell : Cell) (cells : List Cell) :
    balance (cell :: cells) = cell.balance + balance cells :=
  rfl

@[simp] lemma balance_append (cells cells' : List Cell) :
    balance (cells ++ cells') = balance cells + balance cells' := by
  induction cells with
  | nil => simp
  | cons cell cells ih =>
    rw [List.cons_append, balance_cons, balance_cons, ih]
    omega

@[simp] lemma balance_replicate (n : Nat) : balance (List.replicate n (.run [])) = 0 := by
  induction n with
  | zero => rfl
  | succ n ih =>
    rw [List.replicate_succ, balance_cons, ih]
    rfl

@[simp] lemma balance_run_nil : (Cell.run []).balance = 0 :=
  rfl

lemma balance_endMarker_cons (pieces : List Piece) :
    (Cell.run (.marker .endMarker :: pieces)).balance = (Cell.run pieces).balance - 1 := by
  simp only [Cell.balance, List.count_cons_self]
  omega

lemma balance_piece_cons {piece : Piece} (h : piece ≠ .marker .endMarker) (pieces : List Piece) :
    (Cell.run (piece :: pieces)).balance = (Cell.run pieces).balance := by
  simp only [Cell.balance, List.count_cons_of_ne h]

lemma balance_run_nonpos (pieces : List Piece) : (Cell.run pieces).balance ≤ 0 := by
  simp only [Cell.balance]
  omega

lemma balance_split_run (pieces : List Piece) :
    balance (Cell.split (.run pieces)) = (Cell.run pieces).balance := by
  induction pieces with
  | nil => rfl
  | cons piece pieces ih =>
    have hcons : balance (Cell.split (.run (piece :: pieces))) =
        (Cell.run [piece]).balance + balance (Cell.split (.run pieces)) := rfl
    rw [hcons, ih]
    by_cases hpiece : piece = .marker .endMarker
    · subst hpiece
      rw [balance_endMarker_cons, balance_endMarker_cons, balance_run_nil]
      omega
    · rw [balance_piece_cons hpiece, balance_piece_cons hpiece, balance_run_nil, Int.zero_add]

@[simp] lemma balance_split (cells : List Cell) :
    balance (cells.flatMap Cell.split) = balance cells := by
  induction cells with
  | nil => rfl
  | cons cell cells ih =>
    rw [List.flatMap_cons, balance_append, balance_cons, ih]
    cases cell with
    | field condition => simp [Cell.split]
    | run pieces =>
      rw [balance_split_run]

/-- A template closes its fields. -/
@[simp] lemma Template.balance_cells (template : Template) : balance template.cells = 0 := by
  induction template with
  | nil => rfl
  | text content tail ih =>
    rw [cells, balance_cons, ih]
    rfl
  | field condition ifTrue ifFalse tail ihTrue ihFalse ihRest =>
    simp only [cells, balance_cons, balance_append, ihTrue, ihFalse, ihRest]
    rfl

/-- Pieces that leave a field open do not have its closing marker. -/
lemma balance_of_isOpen {pieces : List Piece} (h : outline.pieces? pieces = some after)
    (hopen : after.isClosed = false) : (Cell.run pieces).balance = 0 := by
  induction pieces generalizing outline with
  | nil => rfl
  | cons piece pieces ih =>
    rw [Outline.pieces?, Option.bind_eq_some_iff] at h
    obtain ⟨next, hpiece, hrest⟩ := h
    have hnext : next.isClosed = false := by
      by_contra hclosed
      rw [Bool.not_eq_false] at hclosed
      rw [Outline.pieces?_of_isClosed hclosed, Option.some.injEq] at hrest
      rw [← hrest, hclosed] at hopen
      cases hopen
    have hmarker : piece ≠ .marker .endMarker := by
      rintro rfl
      rw [Outline.isClosed_of_endMarker hpiece] at hnext
      cases hnext
    rw [balance_piece_cons hmarker, ih hrest]

/-- Pieces that close a field have its closing marker. -/
lemma balance_of_isClosed {pieces : List Piece} (h : outline.pieces? pieces = some after)
    (hopen : outline.isClosed = false) (hclosed : after.isClosed = true) :
    (Cell.run pieces).balance < 0 := by
  induction pieces generalizing outline with
  | nil =>
    obtain rfl : outline = after := Option.some.inj h
    rw [hopen] at hclosed
    cases hclosed
  | cons piece pieces ih =>
    rw [Outline.pieces?, Option.bind_eq_some_iff] at h
    obtain ⟨next, hpiece, hrest⟩ := h
    by_cases hmarker : piece = .marker .endMarker
    · have hpieces := balance_run_nonpos pieces
      rw [hmarker, balance_endMarker_cons]
      omega
    · rw [balance_piece_cons hmarker]
      exact ih hrest (Outline.isOpen_of_ne_endMarker hopen hpiece hmarker)

/-- The cells that a field consumes close it. -/
lemma Consumes.balance_lt (h : Consumes cells outline rest after)
    (hopen : outline.isClosed = false) : balance cells < balance rest := by
  induction h with
  | closed isClosed =>
    rw [hopen] at isClosed
    cases isClosed
  | @field condition cells cells' rest outline inner after _ _ _ ihContent ihNext =>
    have hcontent := ihContent rfl
    have hnext := ihNext (by rw [Outline.isClosed_add, hopen])
    rw [balance_cons, Cell.balance]
    omega
  | @run pieces cells rest outline read after _ reads next ih =>
    rw [balance_cons]
    cases hread : read.isClosed with
    | false =>
      have hpieces := balance_of_isOpen reads hread
      have hnext := ih hread
      omega
    | true =>
      have hpieces := balance_of_isClosed reads hopen hread
      obtain ⟨rfl, -⟩ := (consumes_of_isClosed hread).1 next
      omega

/-- Where every field is closed, there are markers for all of them. -/
lemma Found.balance_nonpos {fields : List IfField} (h : Found cells fields) :
    balance cells ≤ 0 := by
  induction h with
  | nil => exact Int.le_refl 0
  | field content _ ih =>
    have hcontent := content.balance_lt rfl
    rw [balance_cons, Cell.balance]
    omega
  | @run pieces cells fields _ ih =>
    have hpieces := balance_run_nonpos pieces
    rw [balance_cons]
    omega

end

end WordFields
