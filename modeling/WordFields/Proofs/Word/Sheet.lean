import WordFields.Proofs.Word.Run

/-!
# Documents of paragraphs

A *sheet* is a document that has paragraphs of runs and nothing else.  `Document.Sheet` gives the
rows of such a document, the runs of each paragraph with what they hold, and everything that the
passes ask about the document is a function of its rows: the sequence of runs, the texts, and what
stands beside a run.
-/

namespace WordFields

/-- The runs of a paragraph, with what they hold. -/
abbrev Row := List (NodeId × RunContent)

namespace Tree

/-- The tree of a paragraph whose runs have the given contents. -/
def paragraph (contents : List RunContent) : Tree :=
  .word "p" [] (contents.map RunContent.tree)

/-- The tree of a document with paragraphs of the given contents. -/
def sheet (paragraphs : List (List RunContent)) : Tree :=
  let declaration : Attribute := ⟨⟨some "xmlns", "w"⟩, none, wordNamespace⟩
  .word "document" [declaration] [.word "body" [] (paragraphs.map paragraph)]

end Tree

namespace Document

variable {d : Document}

/-! ## Beside a node -/

section

variable {parent id : NodeId} {before after : List NodeId}

lemma siblingsOf_eq (hd : d.WellFormed) (h : d.children parent = before ++ id :: after) :
    d.siblingsOf id = before ++ id :: after := by
  have hmem : id ∈ d.children parent := by simp [h]
  rw [siblingsOf, hd.parent_of_mem hmem]
  simp [h]

lemma not_mem_of_children (hd : d.WellFormed) (h : d.children parent = before ++ id :: after) :
    ∀ sibling ∈ before, sibling ≠ id := by
  have hnodup := hd.nodup_children parent
  rw [h, List.nodup_append] at hnodup
  exact fun sibling hsibling => hnodup.2.2 sibling hsibling id List.mem_cons_self

lemma followingSiblings_eq (hd : d.WellFormed) (h : d.children parent = before ++ id :: after) :
    d.followingSiblings id = after := by
  have hbefore : ∀ sibling ∈ before, decide (sibling ≠ id) = true := fun sibling hsibling =>
    decide_eq_true (not_mem_of_children hd h sibling hsibling)
  rw [followingSiblings, siblingsOf_eq hd h, List.dropWhile_append_of_pos hbefore]
  simp

lemma precedingSiblings_eq (hd : d.WellFormed) (h : d.children parent = before ++ id :: after) :
    d.precedingSiblings id = before.reverse := by
  have hbefore : ∀ sibling ∈ before, decide (sibling ≠ id) = true := fun sibling hsibling =>
    decide_eq_true (not_mem_of_children hd h sibling hsibling)
  rw [precedingSiblings, siblingsOf_eq hd h, List.takeWhile_append_of_pos hbefore]
  simp

/-- Where some children are left out, so they are among the siblings. -/
lemma siblings_eq_filter {d' : Document} (hd : d.WellFormed) (hd' : d'.WellFormed)
    {stay : NodeId → Bool} (hid : stay id = true) (hparent : d'.parent id = d.parent id)
    (hchildren : ∀ top, d.parent id = some top → d'.children top = (d.children top).filter stay) :
    d'.followingSiblings id = (d.followingSiblings id).filter stay ∧
      d'.precedingSiblings id = (d.precedingSiblings id).filter stay := by
  cases htop : d.parent id with
  | none =>
    rw [htop] at hparent
    have hnone : d'.siblingsOf id = [] ∧ d.siblingsOf id = [] := by
      simp only [siblingsOf, htop, hparent, and_self]
    simp [followingSiblings, precedingSiblings, hnone]
  | some top =>
    obtain ⟨before, after, hsplit⟩ := List.append_of_mem (hd.mem_of_parent htop)
    have hsplit' := hchildren top htop
    rw [hsplit, List.filter_append, List.filter_cons_of_pos hid] at hsplit'
    rw [followingSiblings_eq hd hsplit, followingSiblings_eq hd' hsplit',
      precedingSiblings_eq hd hsplit, precedingSiblings_eq hd' hsplit', List.filter_reverse]
    exact ⟨rfl, rfl⟩

end

/-! ## Elements from a node on -/

/-- The word-processing elements with a name among a node and those below it. -/
def wordElementsFrom (d : Document) (localName : String) (id : NodeId) : List NodeId :=
  (id :: d.descendants id).filter fun n => d.isWord n localName

lemma wordElementsFrom_eq (d : Document) (localName : String) (id : NodeId) :
    d.wordElementsFrom localName id =
      if d.isWord id localName then id :: d.wordDescendants id localName
      else d.wordDescendants id localName :=
  List.filter_cons

lemma wordElementsFrom_of_not (hd : d.WellFormed) {localName : String} {id : NodeId}
    (h : d.isWord id localName = false) :
    d.wordElementsFrom localName id = (d.children id).flatMap (d.wordElementsFrom localName) := by
  rw [wordElementsFrom_eq, if_neg (by simp [h]), wordDescendants, descendantsIn,
    hd.descendants_eq_flatMap, List.filter_flatMap]
  rfl

lemma wordElements_eq_flatMap (hd : d.WellFormed) (localName : String) :
    d.wordElements localName = (d.children root).flatMap (d.wordElementsFrom localName) := by
  rw [wordElements, descendantsIn, hd.descendants_eq_flatMap, List.filter_flatMap]
  rfl

/-- The runs of a document are all different. -/
lemma WellFormed.nodup_runs (hd : d.WellFormed) : d.runs.Nodup :=
  (hd.nodup_descendants root).filter _

/-! ## Sheets -/

/-- A paragraph with the runs of a row. -/
structure ShowsRow (d : Document) (paragraph : NodeId) (row : Row) : Prop where
  kind_eq : d.kind paragraph = .element (.word "p" [])
  children_eq : d.children paragraph = row.map Prod.fst
  shows : ∀ entry ∈ row, d.Shows entry.1 entry.2.tree

/-- The nodes above the paragraphs of a document. -/
structure Frame (d : Document) (top body : NodeId) (paragraphs : List NodeId) : Prop where
  kind_root : d.kind root = .document
  children_root : d.children root = [top]
  kind_top : ∃ attributes, d.kind top = .element (.word "document" attributes)
  children_top : d.children top = [body]
  kind_body : d.kind body = .element (.word "body" [])
  children_body : d.children body = paragraphs

/-- A document with paragraphs that have the given rows. -/
structure Sheet (d : Document) (rows : List Row) : Prop where
  wellFormed : d.WellFormed
  frame : ∃ (top body : NodeId) (paragraphs : List (NodeId × Row)),
    d.Frame top body (paragraphs.map Prod.fst) ∧ paragraphs.map Prod.snd = rows ∧
      ∀ paragraph ∈ paragraphs, d.ShowsRow paragraph.1 paragraph.2

/-- Runs that show contents make up a row. -/
lemma exists_row {ids : List NodeId} {contents : List RunContent}
    (h : List.Forall₂ d.Shows ids (contents.map RunContent.tree)) :
    ∃ row : Row, row.map Prod.fst = ids ∧ row.map Prod.snd = contents ∧
      ∀ entry ∈ row, d.Shows entry.1 entry.2.tree := by
  have hlength : ids.length = contents.length := by
    have hmap := h.length_eq
    rwa [List.length_map] at hmap
  refine ⟨ids.zip contents, ?_, ?_, ?_⟩
  · exact List.map_fst_zip (Nat.le_of_eq hlength)
  · exact List.map_snd_zip (Nat.le_of_eq hlength.symm)
  · rintro ⟨id, content⟩ hmem
    have hzip : (id, content.tree) ∈ ids.zip (contents.map RunContent.tree) := by
      rw [List.zip_map_right, List.mem_map]
      exact ⟨(id, content), hmem, rfl⟩
    exact List.forall₂_zip h hzip

lemma exists_paragraphs {ids : List NodeId} {contents : List (List RunContent)}
    (h : List.Forall₂ d.Shows ids (contents.map Tree.paragraph)) :
    ∃ paragraphs : List (NodeId × Row), paragraphs.map Prod.fst = ids ∧
      (paragraphs.map Prod.snd).map (fun row => row.map Prod.snd) = contents ∧
      ∀ paragraph ∈ paragraphs, d.ShowsRow paragraph.1 paragraph.2 := by
  induction contents generalizing ids with
  | nil =>
    rw [List.map_nil, List.forall₂_nil_right_iff] at h
    exact ⟨[], h.symm, rfl, by simp⟩
  | cons content contents ih =>
    obtain ⟨id, ids', hid, hids, rfl⟩ := List.forall₂_cons_right_iff.1 h
    obtain ⟨paragraphs, hfst, hsnd, hparagraphs⟩ := ih hids
    obtain ⟨row, hrow, hcontent, hshows⟩ := exists_row hid.forest
    refine ⟨(id, row) :: paragraphs, by simp [hfst], by simp [hcontent, ← hsnd], ?_⟩
    exact List.forall_mem_cons.2 ⟨⟨hid.kind_eq, hrow.symm, hshows⟩, hparagraphs⟩

theorem Displays.exists_sheet {contents : List (List RunContent)}
    (h : d.Displays [Tree.sheet contents]) :
    ∃ rows : List Row, d.Sheet rows ∧ rows.map (fun row => row.map Prod.snd) = contents := by
  obtain ⟨top, hroot, htop⟩ := h.shows_root.only_child
  obtain ⟨body, hchildren, hbody⟩ := htop.only_child
  obtain ⟨paragraphs, hfst, hsnd, hparagraphs⟩ := exists_paragraphs hbody.forest
  have hframe : d.Frame top body (paragraphs.map Prod.fst) :=
    ⟨h.shows_root.kind_eq, hroot, ⟨_, htop.kind_eq⟩, hchildren, hbody.kind_eq, hfst.symm⟩
  exact ⟨_, ⟨h.wellFormed, top, body, paragraphs, hframe, rfl, hparagraphs⟩, hsnd⟩

namespace Sheet

variable {rows : List Row}

/-! ## Views of a sheet -/

lemma shows (h : d.Sheet rows) {entry : NodeId × RunContent} (hentry : entry ∈ rows.flatten) :
    d.Shows entry.1 entry.2.tree := by
  obtain ⟨-, top, body, paragraphs, -, rfl, hparagraphs⟩ := h
  obtain ⟨row, hrow, hmem⟩ := List.mem_flatten.1 hentry
  obtain ⟨paragraph, hparagraph, rfl⟩ := List.mem_map.1 hrow
  exact (hparagraphs paragraph hparagraph).shows entry hmem

/-- The sequence of runs is the rows one behind the other, and so is everything in them. -/
lemma wordElements_eq (h : d.Sheet rows) {localName : String} (htop : "document" ≠ localName)
    (hbody : "body" ≠ localName) (hparagraph : "p" ≠ localName) :
    d.wordElements localName =
      (rows.flatten.map Prod.fst).flatMap (d.wordElementsFrom localName) := by
  obtain ⟨hd, top, body, paragraphs, hframe, rfl, hparagraphs⟩ := h
  obtain ⟨attributes, hkind⟩ := hframe.kind_top
  have hskip : ∀ {id : NodeId} {name : String} {attributes : List Attribute},
      d.kind id = .element (.word name attributes) → name ≠ localName →
        d.wordElementsFrom localName id =
          (d.children id).flatMap (d.wordElementsFrom localName) := by
    intro id name attributes hid hne
    refine wordElementsFrom_of_not hd ?_
    rw [isWord_of_kind hid, beq_eq_false_iff_ne]
    exact hne
  have hrow : ∀ paragraph ∈ paragraphs, d.wordElementsFrom localName paragraph.1 =
      (paragraph.2.map Prod.fst).flatMap (d.wordElementsFrom localName) := by
    intro paragraph hmem
    have hshows := hparagraphs paragraph hmem
    rw [hskip hshows.kind_eq hparagraph, hshows.children_eq]
  calc d.wordElements localName
    _ = (d.children root).flatMap (d.wordElementsFrom localName) := wordElements_eq_flatMap hd _
    _ = (paragraphs.map Prod.fst).flatMap (d.wordElementsFrom localName) := by
      rw [hframe.children_root, List.flatMap_singleton, hskip hkind htop, hframe.children_top,
        List.flatMap_singleton, hskip hframe.kind_body hbody, hframe.children_body]
    _ = paragraphs.flatMap fun paragraph =>
          (paragraph.2.map Prod.fst).flatMap (d.wordElementsFrom localName) := by
      rw [List.flatMap_map]
      exact List.flatMap_congr hrow
    _ = _ := by
      rw [List.flatMap_map, List.flatten_eq_flatMap, List.flatMap_map, List.flatMap_assoc]
      simp only [List.flatMap_map, id]

/-- The runs of a sheet. -/
theorem runs_eq (h : d.Sheet rows) : d.runs = rows.flatten.map Prod.fst := by
  have hrun : ∀ run ∈ rows.flatten.map Prod.fst, d.wordElementsFrom "r" run = [run] := by
    intro run hmem
    obtain ⟨⟨run, content⟩, hentry, rfl⟩ := List.mem_map.1 hmem
    have hshows := h.shows hentry
    have hword : d.isWord run "r" = true := isWord_of_kind hshows.kind_run "r"
    rw [wordElementsFrom_eq, if_pos hword, hshows.inner_runs_eq_nil h.wellFormed]
  rw [runs, h.wordElements_eq (by decide) (by decide) (by decide), List.flatMap_congr hrun]
  simp

theorem nodup_runs (h : d.Sheet rows) : (rows.flatten.map Prod.fst).Nodup := by
  rw [← h.runs_eq]
  exact h.wellFormed.nodup_runs

/-- The texts of a sheet, in document order. -/
theorem textRuns_eq (h : d.Sheet rows) :
    d.textRuns =
      (rows.flatten.filterMap fun entry => entry.2.text?).filter fun text => !text.isEmpty := by
  have htexts : ∀ entry ∈ rows.flatten,
      (d.wordElementsFrom "t" entry.1).map d.textContent = entry.2.text?.toList := by
    intro entry hentry
    have hshows := h.shows hentry
    have hword : ¬ d.isWord entry.1 "t" = true := by
      rw [isWord_of_kind hshows.kind_run]
      decide
    rw [wordElementsFrom_eq, if_neg hword]
    exact hshows.texts h.wellFormed
  have helements : d.textElements.map d.textContent =
      rows.flatten.filterMap fun entry => entry.2.text? := by
    rw [textElements, h.wordElements_eq (by decide) (by decide) (by decide), List.flatMap_map,
      List.map_flatMap, List.flatMap_congr htexts, List.filterMap_eq_flatMap_toList]
  rw [textRuns, helements]

/-! ## Beside a run -/

section

variable {row before after : Row} {entry : NodeId × RunContent}

lemma isElement (h : d.Sheet rows) (hentry : entry ∈ rows.flatten) :
    d.isElement entry.1 = true :=
  isElement_of_kind (h.shows hentry).kind_run

/-- The nodes of a row, or of a part of it, are all elements. -/
lemma filter_isElement (h : d.Sheet rows) {part : Row}
    (hpart : ∀ entry ∈ part, entry ∈ rows.flatten) :
    (part.map Prod.fst).filter d.isElement = part.map Prod.fst := by
  rw [List.filter_eq_self]
  intro run hrun
  obtain ⟨entry, hentry, rfl⟩ := List.mem_map.1 hrun
  exact h.isElement (hpart entry hentry)

lemma children_of_mem (h : d.Sheet rows) (hrow : row ∈ rows) :
    ∃ paragraph, d.children paragraph = row.map Prod.fst := by
  obtain ⟨-, top, body, paragraphs, -, rfl, hparagraphs⟩ := h
  obtain ⟨paragraph, hmem, rfl⟩ := List.mem_map.1 hrow
  exact ⟨paragraph.1, (hparagraphs paragraph hmem).children_eq⟩

lemma followingElements_eq (h : d.Sheet rows) (hrow : before ++ entry :: after ∈ rows) :
    d.followingElements entry.1 = after.map Prod.fst := by
  obtain ⟨paragraph, hchildren⟩ := h.children_of_mem hrow
  rw [List.map_append, List.map_cons] at hchildren
  rw [followingElements, followingSiblings_eq h.wellFormed hchildren]
  refine h.filter_isElement fun other hother => List.mem_flatten.2 ⟨_, hrow, ?_⟩
  exact List.mem_append_right _ (List.mem_cons_of_mem _ hother)

lemma precedingElements_eq (h : d.Sheet rows) (hrow : before ++ entry :: after ∈ rows) :
    d.precedingElements entry.1 = (before.map Prod.fst).reverse := by
  obtain ⟨paragraph, hchildren⟩ := h.children_of_mem hrow
  rw [List.map_append, List.map_cons] at hchildren
  rw [precedingElements, precedingSiblings_eq h.wellFormed hchildren, List.filter_reverse]
  refine congrArg List.reverse (h.filter_isElement fun other hother => ?_)
  exact List.mem_flatten.2 ⟨_, hrow, List.mem_append_left _ hother⟩

end

end Sheet

end Document

end WordFields
