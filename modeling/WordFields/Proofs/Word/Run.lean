import WordFields.Field.Reading
import WordFields.Proofs.Tree.Shape

/-!
# What a run holds

The runs of the documents that proofs build hold one thing each: a mark, an instruction, or a text.
`RunContent` says which, and the views of a run are computed from it: for a run that shows the tree
of a content, everything that `Word.View` and `Word.Locator` ask about this run is decided by the
content alone.
-/

namespace WordFields

/-- A word-processing element, with the prefix that is usual. -/
def Element.word (localName : String) (attributes : List Attribute) : Element :=
  ⟨⟨some "w", localName⟩, some wordNamespace, attributes⟩

/-- The attribute of a field character that says which mark it is. -/
def FieldMark.attribute (mark : FieldMark) : Attribute :=
  ⟨⟨some "w", "fldCharType"⟩, some wordNamespace, mark.name⟩

/-- A word-processing element with the trees below it. -/
def Tree.word (localName : String) (attributes : List Attribute) (trees : List Tree) : Tree :=
  .node (.element (.word localName attributes)) trees

/-- The attribute that declares the usual prefix. -/
def Document.wordDeclaration : Attribute :=
  ⟨⟨some "xmlns", "w"⟩, none, wordNamespace⟩

/-- What a run holds. -/
inductive RunContent where
  | mark (mark : FieldMark)
  | instruction (text : String)
  | text (text : String)
  deriving DecidableEq

namespace RunContent

/-- The tree of a run with this content. -/
def tree : RunContent → Tree
  | .mark kind => .word "r" [] [.word "fldChar" [kind.attribute] []]
  | .instruction content => .word "r" [] [.word "instrText" [] [.node (.text content) []]]
  | .text content => .word "r" [] [.word "t" [] [.node (.text content) []]]

/-- The name of the element of a run that holds a content. -/
def elementName : RunContent → String
  | .mark _ => "fldChar"
  | .instruction _ => "instrText"
  | .text _ => "t"

/-- The mark of a content. -/
def mark? : RunContent → Option FieldMark
  | .mark kind => some kind
  | _ => none

/-- The text that a content adds to the document. -/
def text? : RunContent → Option String
  | .text content => some content
  | _ => none

end RunContent

namespace FieldMark

lemma ofName?_name (mark : FieldMark) : ofName? mark.name = some mark := by
  cases mark <;> decide

end FieldMark

namespace Document

variable {d : Document}

/-! ## Kinds -/

lemma isWord_congr {d' : Document} {id : NodeId} (h : d'.kind id = d.kind id) (localName : String) :
    d'.isWord id localName = d.isWord id localName := by
  rw [isWord, isWord, isElementIn, isElementIn, element?, element?, h]

lemma isWord_of_kind {id : NodeId} {localName : String} {attributes : List Attribute}
    (h : d.kind id = .element (.word localName attributes)) (other : String) :
    d.isWord id other = (localName == other) := by
  simp [isWord, isElementIn, element?, h, NodeKind.element?, Element.isNamed, Element.word]

lemma isWord_of_kind_text {id : NodeId} {value : String} (h : d.kind id = .text value)
    (other : String) : d.isWord id other = false := by
  simp [isWord, isElementIn, element?, h, NodeKind.element?]

lemma exists_element_of_isWord {x : NodeId} {localName : String}
    (h : d.isWord x localName = true) : ∃ e, d.kind x = .element e := by
  unfold isWord isElementIn element? at h
  cases hkind : d.kind x with
  | element e => exact ⟨e, rfl⟩
  | document => simp [hkind, NodeKind.element?] at h
  | text value => simp [hkind, NodeKind.element?] at h
  | cdata value => simp [hkind, NodeKind.element?] at h
  | comment value => simp [hkind, NodeKind.element?] at h
  | declaration value => simp [hkind, NodeKind.element?] at h
  | processing value => simp [hkind, NodeKind.element?] at h
  | doctype value => simp [hkind, NodeKind.element?] at h

lemma name_eq_of_isWord {x : NodeId} {name name' : String} (h : d.isWord x name = true)
    (h' : d.isWord x name' = true) : name = name' := by
  obtain ⟨e, hkind⟩ := exists_element_of_isWord h
  simp only [isWord, isElementIn, element?, hkind, NodeKind.element?, Option.any_some,
    Element.isNamed, Bool.and_eq_true, beq_iff_eq] at h h'
  exact h.1.symm.trans h'.1

lemma isElement_of_kind {id : NodeId} {element : Element} (h : d.kind id = .element element) :
    d.isElement id = true := by
  simp [isElement, h, NodeKind.isElement, NodeKind.element?]

lemma firstWordDescendant?_eq_head? (d : Document) (id : NodeId) (localName : String) :
    d.firstWordDescendant? id localName = (d.wordDescendants id localName).head? := by
  rw [wordDescendants, descendantsIn, List.head?_filter]
  rfl

/-! ## The nodes of a run -/

/-- The nodes of a run with a mark: the run, and the field character in it. -/
structure MarkRun (d : Document) (run : NodeId) (mark : FieldMark) (leaf : NodeId) : Prop where
  kind_run : d.kind run = .element (.word "r" [])
  children_run : d.children run = [leaf]
  kind_leaf : d.kind leaf = .element (.word "fldChar" [mark.attribute])
  children_leaf : d.children leaf = []

/-- The nodes of a run with characters: the run, the element in it, and the text node in that. -/
structure CharacterRun (d : Document) (run : NodeId) (localName content : String)
    (holder leaf : NodeId) : Prop where
  kind_run : d.kind run = .element (.word "r" [])
  children_run : d.children run = [holder]
  kind_holder : d.kind holder = .element (.word localName [])
  children_holder : d.children holder = [leaf]
  kind_leaf : d.kind leaf = .text content
  children_leaf : d.children leaf = []

lemma Shows.markRun {run : NodeId} {mark : FieldMark} (h : d.Shows run (RunContent.mark mark).tree) :
    ∃ leaf, d.MarkRun run mark leaf := by
  obtain ⟨leaf, hchildren, hleaf⟩ := h.only_child
  exact ⟨leaf, h.kind_eq, hchildren, hleaf.kind_eq, hleaf.children_nil⟩

lemma Shows.characterRun {run : NodeId} {localName content : String}
    (h : d.Shows run (.word "r" [] [.word localName [] [.node (.text content) []]])) :
    ∃ holder leaf, d.CharacterRun run localName content holder leaf := by
  obtain ⟨holder, hchildren, hholder⟩ := h.only_child
  obtain ⟨leaf, hholderChildren, hleaf⟩ := hholder.only_child
  exact ⟨holder, leaf, h.kind_eq, hchildren, hholder.kind_eq, hholderChildren, hleaf.kind_eq,
    hleaf.children_nil⟩

/-! ## Runs with a mark -/

namespace MarkRun

variable {run leaf : NodeId} {mark : FieldMark}

lemma parent_leaf (h : d.MarkRun run mark leaf) (hd : d.WellFormed) : d.parent leaf = some run :=
  hd.parent_of_mem (by simp [h.children_run])

lemma descendants_run (h : d.MarkRun run mark leaf) (hd : d.WellFormed) :
    d.descendants run = [leaf] := by
  have hleaf : d.descendants leaf = [] := by
    rw [hd.descendants_eq_flatMap, h.children_leaf, List.flatMap_nil]
  rw [hd.descendants_eq_flatMap, h.children_run]
  simp [hleaf]

lemma wordDescendants_run (h : d.MarkRun run mark leaf) (hd : d.WellFormed) (other : String) :
    d.wordDescendants run other = if "fldChar" == other then [leaf] else [] := by
  have hleaf := isWord_of_kind h.kind_leaf other
  rw [isWord] at hleaf
  simp [wordDescendants, descendantsIn, h.descendants_run hd, List.filter_cons, hleaf]

lemma fieldMark?_leaf (h : d.MarkRun run mark leaf) : d.fieldMark? leaf = some mark := by
  have hword : d.isWord leaf "fldChar" = true := isWord_of_kind h.kind_leaf "fldChar"
  have hvalue : d.wordAttribute? leaf "fldCharType" = some mark.name := by
    simp [wordAttribute?, attributeIn?, element?, h.kind_leaf, NodeKind.element?,
      Element.attributeIn?, Element.word, FieldMark.attribute]
  rw [fieldMark?, if_pos hword, hvalue]
  exact mark.ofName?_name

end MarkRun

/-! ## Runs with characters -/

namespace CharacterRun

variable {run holder leaf : NodeId} {localName content : String}

lemma parent_holder (h : d.CharacterRun run localName content holder leaf) (hd : d.WellFormed) :
    d.parent holder = some run :=
  hd.parent_of_mem (by simp [h.children_run])

lemma descendants_holder (h : d.CharacterRun run localName content holder leaf)
    (hd : d.WellFormed) : d.descendants holder = [leaf] := by
  have hleaf : d.descendants leaf = [] := by
    rw [hd.descendants_eq_flatMap, h.children_leaf, List.flatMap_nil]
  rw [hd.descendants_eq_flatMap, h.children_holder]
  simp [hleaf]

lemma descendants_run (h : d.CharacterRun run localName content holder leaf) (hd : d.WellFormed) :
    d.descendants run = [holder, leaf] := by
  rw [hd.descendants_eq_flatMap, h.children_run]
  simp [h.descendants_holder hd]

lemma wordDescendants_run (h : d.CharacterRun run localName content holder leaf)
    (hd : d.WellFormed) (other : String) :
    d.wordDescendants run other = if localName == other then [holder] else [] := by
  have hholder := isWord_of_kind h.kind_holder other
  have hleaf := isWord_of_kind_text h.kind_leaf other
  rw [isWord] at hholder hleaf
  simp [wordDescendants, descendantsIn, h.descendants_run hd, List.filter_cons, hholder, hleaf]

lemma textContent_holder (h : d.CharacterRun run localName content holder leaf)
    (hd : d.WellFormed) : d.textContent holder = content := by
  have hkind : (d.kind holder).textValue? = none := by
    rw [h.kind_holder]
    rfl
  have hleaf : (d.kind leaf).textValue? = some content := by
    rw [h.kind_leaf]
    rfl
  simp [textContent, hkind, h.descendants_holder hd, hleaf, Text.concat]

/-- The text node is found in a text element of the run and in no other element. -/
lemma runTexts_run (h : d.CharacterRun run localName content holder leaf) (hd : d.WellFormed) :
    d.runTexts run = if localName == "t" then [(leaf, content)] else [] := by
  rw [runTexts, h.wordDescendants_run hd]
  split
  · simp [h.children_holder, h.kind_leaf]
  · rfl

end CharacterRun

/-! ## Runs of a given content -/

section

variable {run : NodeId} {content : RunContent}

lemma Shows.kind_run (h : d.Shows run content.tree) : d.kind run = .element (.word "r" []) := by
  cases content <;> exact h.kind_eq

/-- A run holds no word-processing element but the one of its content. -/
lemma Shows.wordDescendants_eq_nil (hd : d.WellFormed) (h : d.Shows run content.tree)
    {other : String} (hother : content.elementName ≠ other) : d.wordDescendants run other = [] := by
  have hname : (content.elementName == other) = false := beq_false_of_ne hother
  cases content with
  | mark kind =>
    obtain ⟨leaf, hrun⟩ := h.markRun
    rw [hrun.wordDescendants_run hd]
    exact if_neg (by simpa [RunContent.elementName] using hname)
  | instruction content =>
    obtain ⟨holder, leaf, hrun⟩ := Shows.characterRun h
    rw [hrun.wordDescendants_run hd]
    exact if_neg (by simpa [RunContent.elementName] using hname)
  | text content =>
    obtain ⟨holder, leaf, hrun⟩ := Shows.characterRun h
    rw [hrun.wordDescendants_run hd]
    exact if_neg (by simpa [RunContent.elementName] using hname)

/-- A run holds no other run. -/
lemma Shows.inner_runs_eq_nil (hd : d.WellFormed) (h : d.Shows run content.tree) :
    d.wordDescendants run "r" = [] := by
  apply Shows.wordDescendants_eq_nil hd h
  cases content with
  | mark kind => exact show "fldChar" ≠ "r" by decide
  | instruction content => exact show "instrText" ≠ "r" by decide
  | text content => exact show "t" ≠ "r" by decide

lemma Shows.runMark? (hd : d.WellFormed) (h : d.Shows run content.tree) :
    d.runMark? run = content.mark? := by
  rw [Document.runMark?, firstWordDescendant?_eq_head?]
  cases content with
  | mark kind =>
    obtain ⟨leaf, hrun⟩ := h.markRun
    rw [hrun.wordDescendants_run hd]
    exact hrun.fieldMark?_leaf
  | instruction content =>
    rw [Shows.wordDescendants_eq_nil hd h (show "instrText" ≠ "fldChar" by decide)]
    rfl
  | text content =>
    rw [Shows.wordDescendants_eq_nil hd h (show "t" ≠ "fldChar" by decide)]
    rfl

/-- The mark that is looked for is found in a run exactly if it is what the run holds. -/
lemma Shows.markIn?_eq_none (hd : d.WellFormed) (h : d.Shows run content.tree) {mark : FieldMark}
    (hmark : content.mark? ≠ some mark) : d.markIn? mark run = none := by
  rw [markIn?]
  cases content with
  | mark kind =>
    obtain ⟨leaf, hrun⟩ := h.markRun
    have hne : kind ≠ mark := fun heq => hmark (congrArg some heq)
    simp [hrun.wordDescendants_run hd, hrun.fieldMark?_leaf, hne]
  | instruction content =>
    rw [Shows.wordDescendants_eq_nil hd h (show "instrText" ≠ "fldChar" by decide)]
    rfl
  | text content =>
    rw [Shows.wordDescendants_eq_nil hd h (show "t" ≠ "fldChar" by decide)]
    rfl

lemma Shows.markIn?_mark (hd : d.WellFormed) {mark : FieldMark}
    (h : d.Shows run (RunContent.mark mark).tree) :
    ∃ leaf, d.markIn? mark run = some leaf ∧ d.parent leaf = some run ∧
      d.enclosingRun? leaf = some run := by
  obtain ⟨leaf, hrun⟩ := h.markRun
  have hparent := hrun.parent_leaf hd
  refine ⟨leaf, ?_, hparent, ?_⟩
  · simp [markIn?, hrun.wordDescendants_run hd, hrun.fieldMark?_leaf]
  · have hleaf : d.isWord leaf "r" = false := isWord_of_kind hrun.kind_leaf "r"
    have hword : d.isWord run "r" = true := isWord_of_kind hrun.kind_run "r"
    have hlt : leaf < d.size := hd.child_lt_size (hd.mem_of_parent hparent)
    obtain ⟨steps, hsteps⟩ := Nat.exists_eq_succ_of_ne_zero (Nat.ne_zero_of_lt hlt)
    rw [enclosingRun?, hsteps, nearest?, hleaf]
    simp only [hparent]
    cases steps <;> simp [nearest?, hword]

lemma Shows.runInstruction? (hd : d.WellFormed) {instruction : String}
    (h : d.Shows run (RunContent.instruction instruction).tree) :
    ∃ holder, d.runInstruction? run = some holder ∧ d.textContent holder = instruction ∧
      d.parent holder = some run := by
  obtain ⟨holder, leaf, hrun⟩ := Shows.characterRun h
  refine ⟨holder, ?_, hrun.textContent_holder hd, hrun.parent_holder hd⟩
  rw [Document.runInstruction?, firstWordDescendant?_eq_head?, hrun.wordDescendants_run hd]
  rfl

lemma Shows.runTexts (hd : d.WellFormed) {text : String}
    (h : d.Shows run (RunContent.text text).tree) :
    ∃ leaf, d.runTexts run = [(leaf, text)] := by
  obtain ⟨holder, leaf, hrun⟩ := Shows.characterRun h
  exact ⟨leaf, hrun.runTexts_run hd⟩

/-- What the text elements of a run show. -/
lemma Shows.texts (hd : d.WellFormed) (h : d.Shows run content.tree) :
    (d.wordDescendants run "t").map d.textContent = content.text?.toList := by
  cases content with
  | mark kind =>
    rw [Shows.wordDescendants_eq_nil hd h (show "fldChar" ≠ "t" by decide)]
    rfl
  | instruction content =>
    rw [Shows.wordDescendants_eq_nil hd h (show "instrText" ≠ "t" by decide)]
    rfl
  | text content =>
    obtain ⟨holder, leaf, hrun⟩ := Shows.characterRun h
    rw [hrun.wordDescendants_run hd]
    simp [hrun.textContent_holder hd, RunContent.text?]

lemma Shows.runText (hd : d.WellFormed) {text : String}
    (h : d.Shows run (RunContent.text text).tree) : d.runText run = text := by
  rw [Document.runText, Shows.texts hd h]
  simp [RunContent.text?, Text.concat]

end

end Document

end WordFields
