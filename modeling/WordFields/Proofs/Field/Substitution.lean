import WordFields.Field.Substitution
import WordFields.Proofs.Word.Run

/-!
# What substitution changes

Substituting a merge field changes one text element and adds at most two nodes: a text below the
element and a comment before it.  `Document.Substituted` says what a sequence of substitutions does
to a document, view by view and for all nodes at once.  It holds of one substitution
(`substituted_substitute`) and is kept when another sequence follows (`Substituted.trans`): an
element that was substituted has only a text below it, so no later comment gets there, and a new
node is never an element, so it is never substituted.

The pass makes its decisions on the document as it is when a field comes up.  `mergeActions` lists
them, and the pass is the sequence of those substitutions that are among them, so a field that is
only reported changes nothing.
-/

namespace WordFields

namespace Element

/-! ## Setting an attribute -/

lemma replaceValue_replaceValue (name : QualifiedName) (value value' : String)
    (attributes : List Attribute) :
    replaceValue name value' (replaceValue name value attributes) =
      replaceValue name value' attributes := by
  induction attributes with
  | nil => rfl
  | cons a rest ih =>
    by_cases ha : a.name = name
    · simp [replaceValue, ha]
    · simp [replaceValue, ha, ih]

lemma any_replaceValue (name : QualifiedName) (value : String) (attributes : List Attribute) :
    ((replaceValue name value attributes).any fun a => a.name == name) =
      attributes.any fun a => a.name == name := by
  induction attributes with
  | nil => rfl
  | cons a rest ih =>
    by_cases ha : a.name = name
    · simp [replaceValue, ha]
    · simp [replaceValue, ha, ih]

lemma replaceValue_append_of_none {name : QualifiedName} {attributes : List Attribute}
    (h : (attributes.any fun a => a.name == name) = false) (new : Attribute) (value : String)
    (hnew : new.name = name) :
    replaceValue name value (attributes ++ [new]) = attributes ++ [{ new with value }] := by
  induction attributes with
  | nil => simp [replaceValue, hnew]
  | cons a rest ih =>
    rw [List.any_cons, Bool.or_eq_false_iff] at h
    have ha : a.name ≠ name := by simpa using h.1
    rw [List.cons_append, replaceValue, if_neg ha, ih h.2, List.cons_append]

/-- Of several values that an attribute gets the last one counts. -/
lemma setAttribute_setAttribute (element : Element) (name value value' : String) :
    (element.setAttribute name value).setAttribute name value' =
      element.setAttribute name value' := by
  by_cases hany : (element.attributes.any fun a => a.name == QualifiedName.ofString name) = true
  · simp only [setAttribute, hany, if_true, any_replaceValue, replaceValue_replaceValue]
  · rw [Bool.not_eq_true] at hany
    have happend := @replaceValue_append_of_none (QualifiedName.ofString name) _ hany
      ⟨QualifiedName.ofString name, none, value⟩ value' rfl
    simp [setAttribute, hany, happend]

/-- The attribute that records paths, as elements hold it. -/
def mergeName : QualifiedName :=
  ⟨none, mergeAttribute⟩

lemma ofString_mergeAttribute : QualifiedName.ofString mergeAttribute = mergeName := by
  decide

lemma toString_eq_mergeAttribute_iff (name : QualifiedName) :
    name.toString = mergeAttribute ↔ name = mergeName := by
  constructor
  · intro h
    obtain ⟨nsPrefix, localName⟩ := name
    have hchars : QualifiedName.toChars ⟨nsPrefix, localName⟩ = mergeAttribute.toList := by
      rw [← h, QualifiedName.toString, String.toList_ofList]
    cases nsPrefix with
    | none =>
      rw [mergeName, ← String.toList_inj.1 hchars]
    | some nsPrefix =>
      have hcolon : ':' ∈ mergeAttribute.toList := by
        rw [← hchars]
        simp [QualifiedName.toChars]
      exact absurd hcolon (by decide)
  · rintro rfl
    decide

lemma find?_replaceValue {name : QualifiedName} {value : String} {attributes : List Attribute}
    (h : (attributes.any fun a => a.name == name) = true) :
    ((replaceValue name value attributes).find? fun a => a.name == name).map Attribute.value =
      some value := by
  induction attributes with
  | nil => cases h
  | cons a rest ih =>
    by_cases ha : a.name = name
    · simp [replaceValue, ha]
    · have hrest : (rest.any fun a => a.name == name) = true := by simpa [ha] using h
      simpa [replaceValue, ha] using ih hrest

/-- The path that was recorded is read back. -/
lemma attribute?_setAttribute (element : Element) (path : String) :
    (element.setAttribute mergeAttribute path).attribute? mergeAttribute = some path := by
  have htest : (fun a : Attribute => a.name.toString == mergeAttribute) =
      fun a => a.name == mergeName := by
    funext a
    rw [Bool.eq_iff_iff, beq_iff_eq, beq_iff_eq]
    exact toString_eq_mergeAttribute_iff a.name
  rw [attribute?, htest, setAttribute, ofString_mergeAttribute]
  by_cases hany : (element.attributes.any fun a => a.name == mergeName) = true
  · rw [if_pos hany]
    exact find?_replaceValue hany
  · rw [if_neg hany]
    rw [Bool.not_eq_true, List.any_eq_false] at hany
    have hnone : element.attributes.find? (fun a => a.name == mergeName) = none :=
      List.find?_eq_none.2 hany
    simp [hnone]

lemma filter_replaceValue (name : QualifiedName) (value : String) (attributes : List Attribute) :
    (replaceValue name value attributes).filter (·.name ≠ name) =
      attributes.filter (·.name ≠ name) := by
  induction attributes with
  | nil => rfl
  | cons a rest ih =>
    by_cases ha : a.name = name
    · simp [replaceValue, ha]
    · rw [replaceValue, if_neg ha, List.filter_cons, List.filter_cons, ih]

/-- Recording a path leaves the other attributes alone. -/
lemma filter_setAttribute (element : Element) (path : String) :
    (element.setAttribute mergeAttribute path).attributes.filter (·.name ≠ mergeName) =
      element.attributes.filter (·.name ≠ mergeName) := by
  rw [setAttribute, ofString_mergeAttribute]
  split
  · exact filter_replaceValue mergeName path element.attributes
  · simp

@[simp] lemma name_setAttribute (element : Element) (name value : String) :
    (element.setAttribute name value).name = element.name := by
  simp only [setAttribute]
  split <;> rfl

@[simp] lemma namespaceName_setAttribute (element : Element) (name value : String) :
    (element.setAttribute name value).namespaceName = element.namespaceName := by
  simp only [setAttribute]
  split <;> rfl

end Element

/-! ## What the pass does -/

namespace Document

namespace MergeAction

/-- The element that gets a path, and the path. -/
def target? : MergeAction → Option (NodeId × String)
  | .substitute element path => some (element, path)
  | .report _ => none
  | .keep => none

def isReport : MergeAction → Bool
  | .report _ => true
  | .keep => false
  | .substitute _ _ => false

def isKeep : MergeAction → Bool
  | .keep => true
  | .report _ => false
  | .substitute _ _ => false

/-- An action changes a document only if it is a substitution. -/
def apply (d : Document) (options : Options) : MergeAction → Document
  | .substitute element path => d.substitute options element path
  | .report _ => d
  | .keep => d

/-- Every action is a substitution, a report or neither. -/
lemma length_eq (actions : List MergeAction) :
    actions.length = (actions.filterMap target?).length + actions.countP isKeep +
      actions.countP isReport := by
  induction actions with
  | nil => rfl
  | cons action actions ih =>
    rw [List.length_cons, ih, List.filterMap_cons, List.countP_cons, List.countP_cons]
    cases action with
    | report diagnostic => simp [target?, isReport, isKeep, Nat.add_assoc]
    | keep =>
      simp [target?, isReport, isKeep]
      omega
    | substitute element path =>
      simp [target?, isReport, isKeep]
      omega

end MergeAction

/-- Substitutes elements one after the other. -/
def substituteAll (d : Document) (options : Options) (targets : List (NodeId × String)) :
    Document :=
  targets.foldl (fun d target => d.substitute options target.1 target.2) d

/-- What the pass does for each of some merge fields. -/
def mergeActions (options : Options) : Document → List MergeField → List MergeAction
  | _, [] => []
  | d, field :: fields =>
    d.mergeAction field :: mergeActions options ((d.mergeAction field).apply d options) fields

/-- The substitutions of the pass for some merge fields, in order. -/
def mergeTargets (options : Options) (d : Document) (fields : List MergeField) :
    List (NodeId × String) :=
  (mergeActions options d fields).filterMap MergeAction.target?

lemma length_mergeActions (options : Options) (d : Document) (fields : List MergeField) :
    (mergeActions options d fields).length = fields.length := by
  induction fields generalizing d with
  | nil => rfl
  | cons field fields ih => rw [mergeActions, List.length_cons, List.length_cons, ih]

lemma document_mergeStep (options : Options) (runs : List NodeId) (result : PassResult)
    (field : MergeField) :
    (mergeStep options runs result field).document =
      (result.document.mergeAction field).apply result.document options := by
  simp only [mergeStep]
  cases result.document.mergeAction field <;> rfl

lemma count_mergeStep (options : Options) (runs : List NodeId) (result : PassResult)
    (field : MergeField) :
    (mergeStep options runs result field).count =
      result.count + (result.document.mergeAction field).target?.toList.length := by
  simp only [mergeStep]
  cases result.document.mergeAction field <;> rfl

lemma length_diagnostics_mergeStep (options : Options) (runs : List NodeId) (result : PassResult)
    (field : MergeField) :
    (mergeStep options runs result field).diagnostics.length = result.diagnostics.length +
      if (result.document.mergeAction field).isReport then 1 else 0 := by
  simp only [mergeStep]
  cases result.document.mergeAction field <;> simp [MergeAction.isReport]

lemma mergeTargets_cons (options : Options) (d : Document) (field : MergeField)
    (fields : List MergeField) :
    mergeTargets options d (field :: fields) = (d.mergeAction field).target?.toList ++
      mergeTargets options ((d.mergeAction field).apply d options) fields := by
  rw [mergeTargets, mergeActions, List.filterMap_cons]
  cases d.mergeAction field <;> rfl

/-- The pass carries out the substitutions among its actions, counts them, and reports what it
cannot handle. -/
lemma foldl_mergeStep (options : Options) (runs : List NodeId) (fields : List MergeField)
    (result : PassResult) :
    let after := fields.foldl (mergeStep options runs) result
    after.document =
        result.document.substituteAll options (mergeTargets options result.document fields) ∧
      after.count = result.count + (mergeTargets options result.document fields).length ∧
      after.diagnostics.length = result.diagnostics.length +
        (mergeActions options result.document fields).countP MergeAction.isReport := by
  induction fields generalizing result with
  | nil => exact ⟨rfl, rfl, rfl⟩
  | cons field fields ih =>
    obtain ⟨hdocument, hcount, hdiagnostics⟩ := ih (mergeStep options runs result field)
    rw [document_mergeStep] at hdocument hcount hdiagnostics
    refine ⟨?_, ?_, ?_⟩
    · rw [List.foldl_cons, hdocument, mergeTargets_cons]
      cases result.document.mergeAction field <;> rfl
    · rw [List.foldl_cons, hcount, count_mergeStep, mergeTargets_cons, List.length_append]
      omega
    · rw [List.foldl_cons, hdiagnostics, length_diagnostics_mergeStep, mergeActions,
        List.countP_cons]
      omega

lemma processMergeFields_document (d : Document) (options : Options) :
    (d.processMergeFields options).document =
      d.substituteAll options (mergeTargets options d d.mergeFields) :=
  (foldl_mergeStep options d.runs d.mergeFields ⟨d, 0, []⟩).1

/-! ## What substitutions change -/

/-- A document that came from another by substituting some elements for paths, one after the
other. -/
structure Substituted (d d' : Document) (options : Options) (targets : List (NodeId × String)) :
    Prop where
  wellFormed : d'.WellFormed
  size_le : d.size ≤ d'.size
  isWord : ∀ x ∈ targets.map Prod.fst, d.isWord x "t" = true
  /-- An element that was substituted records the path of its last substitution. -/
  kind_target : ∀ x ∈ targets.map Prod.fst, ∃ e path before after,
    targets = before ++ (x, path) :: after ∧ x ∉ after.map Prod.fst ∧
      d.kind x = .element e ∧ d'.kind x = .element (e.setAttribute mergeAttribute path)
  kind_eq : ∀ x, x < d.size → x ∉ targets.map Prod.fst → d'.kind x = d.kind x
  isElement_new : ∀ x, d.size ≤ x → d'.isElement x = false
  /-- The placeholder is all that is below it. -/
  children_target : ∀ x ∈ targets.map Prod.fst,
    if options.placeholder.isEmpty then d'.children x = []
    else ∃ text, d'.children x = [text] ∧ d.size ≤ text ∧
      d'.kind text = .text options.placeholder
  children_eq : ∀ x, x ∉ targets.map Prod.fst →
    (d'.children x).filter (· < d.size) = d.children x
  /-- New nodes in other places are comments beside the elements that were substituted. -/
  children_new : ∀ x, x ∉ targets.map Prod.fst → ∀ child ∈ d'.children x, d.size ≤ child →
    options.mergeComments = true ∧ ∃ target ∈ targets, target.1 ∈ d.children x ∧
      d'.kind child = .comment (mergeComment target.2)

lemma isElement_of_size_le {d : Document} {x : NodeId} (h : d.size ≤ x) :
    d.isElement x = false := by
  rw [isElement, kind, node_of_size_le h]
  rfl

lemma lt_size_of_isElement {d : Document} {x : NodeId} (h : d.isElement x = true) : x < d.size := by
  by_contra hge
  rw [isElement_of_size_le (Nat.le_of_not_lt hge)] at h
  cases h

/-! ### One substitution -/

lemma kind_setAttribute {d : Document} {id : NodeId} {e : Element} (hkind : d.kind id = .element e)
    (name value : String) (x : NodeId) :
    (d.setAttribute id name value).kind x =
      if x = id then .element (e.setAttribute name value) else d.kind x := by
  have hlt : id < d.size := lt_size_of_isElement (isElement_of_kind hkind)
  simp only [setAttribute, hkind, kind_setKind, hlt, and_true]

/-- A text element after its content was replaced. -/
lemma WellFormed.setTextContent_views {d : Document} (h : d.WellFormed) {id : NodeId}
    (hid : id < d.size) (text : String) :
    let d' := d.setTextContent id text
    d'.WellFormed ∧ d.size ≤ d'.size ∧ (∀ x, x < d.size → d'.kind x = d.kind x) ∧
      (∀ x, d.size ≤ x → d'.isElement x = false) ∧
      (if text.isEmpty then d'.children id = []
        else d'.children id = [d.size] ∧ d'.kind d.size = .text text) ∧
      ∀ x, x ≠ id → d'.children x = d.children x := by
  intro d'
  refine ⟨h.setTextContent hid text, ?_⟩
  have hclear := h.clearChildren id
  have hother : ∀ x, x ≠ id → (d.clearChildren id).children x = d.children x := fun x hx => by
    rw [children_clearChildren, if_neg hx]
  have hself : (d.clearChildren id).children id = [] := by
    rw [children_clearChildren, if_pos rfl]
  by_cases hempty : text.isEmpty = true
  · have heq : d' = d.clearChildren id := by
      simp only [d', Document.setTextContent, hempty, if_true]
    rw [heq, if_pos hempty]
    refine ⟨by simp, fun x _ => kind_clearChildren d id x, fun x hx => ?_, hself, hother⟩
    exact isElement_of_size_le (by simpa using hx)
  · have heq : d' = ((d.clearChildren id).appendNew id (.text text)).2 := by
      simp only [d', Document.setTextContent, hempty, if_false, Bool.false_eq_true]
    have hid' : id < (d.clearChildren id).size := by simpa using hid
    have hkind : ∀ x, d'.kind x = if x = d.size then .text text else d.kind x := fun x => by
      rw [heq, kind_appendNew, size_clearChildren, kind_clearChildren]
    have hchildren : ∀ x, d'.children x = (d.clearChildren id).children x ++
        if x = id then [d.size] else [] := fun x => by
      rw [heq, hclear.children_appendNew hid', size_clearChildren]
    rw [if_neg hempty]
    refine ⟨by rw [heq]; simp, fun x hx => ?_, fun x hx => ?_, ⟨?_, ?_⟩, fun x hx => ?_⟩
    · rw [hkind, if_neg (Nat.ne_of_lt hx)]
    · rw [isElement, hkind]
      by_cases hx' : x = d.size
      · rw [if_pos hx']
        rfl
      · rw [if_neg hx']
        exact isElement_of_size_le hx
    · rw [hchildren, hself, if_pos rfl, List.nil_append]
    · rw [hkind, if_pos rfl]
    · rw [hchildren, hother x hx, if_neg hx, List.append_nil]

/-- Replacing the content of an element and recording a path are a substitution without a
comment. -/
lemma WellFormed.substituted_setAttribute {d : Document} (hd : d.WellFormed) (options : Options)
    {id : NodeId} (hword : d.isWord id "t" = true) (path : String) :
    Substituted d ((d.setTextContent id options.placeholder).setAttribute id mergeAttribute path)
      options [(id, path)] := by
  obtain ⟨e, hkind⟩ := exists_element_of_isWord hword
  have hid : id < d.size := lt_size_of_isElement (isElement_of_kind hkind)
  obtain ⟨hwell, hsize, hold, hnew, hself, hother⟩ :=
    hd.setTextContent_views hid options.placeholder
  set filled := d.setTextContent id options.placeholder
  have hkinds := kind_setAttribute ((hold id hid).trans hkind) mergeAttribute path
  have hchildren := children_setAttribute filled id mergeAttribute path
  have htarget : ∀ {x}, x ∈ [(id, path)].map Prod.fst ↔ x = id := by simp
  constructor
  · exact hwell.congr (parent_setAttribute _ _ _ _) hchildren (size_setAttribute _ _ _ _).ge
  · rw [size_setAttribute]
    exact hsize
  · intro x hx
    rwa [htarget.1 hx]
  · intro x hx
    rw [htarget.1 hx]
    exact ⟨e, path, [], [], rfl, List.not_mem_nil, hkind, by rw [hkinds, if_pos rfl]⟩
  · intro x hx hne
    rw [hkinds, if_neg (mt htarget.2 hne), hold x hx]
  · intro x hx
    have hne : x ≠ id := Nat.ne_of_gt (Nat.lt_of_lt_of_le hid hx)
    rw [isElement, hkinds, if_neg hne]
    exact hnew x hx
  · intro x hx
    rw [htarget.1 hx, hchildren]
    by_cases hempty : options.placeholder.isEmpty = true
    · rw [if_pos hempty] at hself ⊢
      exact hself
    · rw [if_neg hempty] at hself ⊢
      refine ⟨d.size, hself.1, Nat.le_refl _, ?_⟩
      rw [hkinds, if_neg (Nat.ne_of_gt hid), hself.2]
  · intro x hx
    rw [hchildren, hother x (mt htarget.2 hx), List.filter_eq_self]
    exact fun child hchild => decide_eq_true (hd.child_lt_size hchild)
  · intro x hx child hchild hnew
    rw [hchildren, hother x (mt htarget.2 hx)] at hchild
    exact absurd (hd.child_lt_size hchild) (Nat.not_lt.2 hnew)

/-- The comment of a substitution may come before its element. -/
lemma Substituted.insertNew {d d' : Document} {options : Options} {targets : List (NodeId × String)}
    (h : Substituted d d' options targets) (hcomments : options.mergeComments = true)
    {id top : NodeId} {path : String} (htarget : (id, path) ∈ targets)
    (htop : top ∉ targets.map Prod.fst) (hchild : id ∈ d.children top) :
    Substituted d (d'.insertNew id (.comment (mergeComment path))) options targets := by
  have hmem : id ∈ d'.children top := by
    rw [← h.children_eq top htop] at hchild
    exact List.mem_of_mem_filter hchild
  obtain ⟨hwell, hsize, hkind, hchildren⟩ :=
    h.wellFormed.insertNew_views (.comment (mergeComment path)) (h.wellFormed.parent_of_mem hmem)
  have hkind_lt : ∀ x, x < d'.size →
      (d'.insertNew id (.comment (mergeComment path))).kind x = d'.kind x := fun x hx => by
    rw [hkind, if_neg (Nat.ne_of_lt hx)]
  constructor
  · exact hwell
  · exact h.size_le.trans (by omega)
  · exact h.isWord
  · intro x hx
    obtain ⟨e, path', before, after, hsplit, hlast, hold, hnew⟩ := h.kind_target x hx
    have hlt : x < d'.size := lt_size_of_isElement (isElement_of_kind hnew)
    exact ⟨e, path', before, after, hsplit, hlast, hold, (hkind_lt x hlt).trans hnew⟩
  · intro x hx hne
    rw [hkind_lt x (Nat.lt_of_lt_of_le hx h.size_le), h.kind_eq x hx hne]
  · intro x hx
    rw [isElement, hkind]
    split
    · rfl
    · exact h.isElement_new x hx
  · intro x hx
    have hx' := h.children_target x hx
    have hne : x ≠ top := by
      rintro rfl
      exact htop hx
    rw [hchildren, if_neg hne]
    by_cases hempty : options.placeholder.isEmpty = true
    · rw [if_pos hempty] at hx' ⊢
      exact hx'
    · rw [if_neg hempty] at hx' ⊢
      obtain ⟨text, htext, hnew, htextKind⟩ := hx'
      have hlt : text < d'.size := h.wellFormed.child_lt_size (by rw [htext]; simp)
      exact ⟨text, htext, hnew, (hkind_lt text hlt).trans htextKind⟩
  · intro x hx
    rw [hchildren]
    split
    next heq =>
      have hlarge : decide (d'.size < d.size) = false := decide_eq_false (Nat.not_lt.2 h.size_le)
      rw [filter_placeBefore hlarge, heq, h.children_eq top htop]
    next => exact h.children_eq x hx
  · intro x hx child hchild' hnew
    rw [hchildren] at hchild'
    have hold : child ∈ d'.children x → options.mergeComments = true ∧ ∃ target ∈ targets,
        target.1 ∈ d.children x ∧ (d'.insertNew id (.comment (mergeComment path))).kind child =
          .comment (mergeComment target.2) := by
      intro hmem
      rw [hkind_lt child (h.wellFormed.child_lt_size hmem)]
      exact h.children_new x hx child hmem hnew
    split at hchild'
    next heq =>
      subst heq
      rcases mem_placeBefore hchild' with rfl | hmem
      · exact ⟨hcomments, (id, path), htarget, hchild, by rw [hkind, if_pos rfl]⟩
      · exact hold hmem
    next => exact hold hchild'

/-- A substitution is an edit of the text element, with a comment if comments are wanted. -/
lemma substitute_eq (d : Document) (options : Options) (id : NodeId) (path : String) :
    d.substitute options id path =
      if options.mergeComments then
        ((d.setTextContent id options.placeholder).setAttribute id mergeAttribute path).insertNew id
          (.comment (mergeComment path))
      else (d.setTextContent id options.placeholder).setAttribute id mergeAttribute path :=
  rfl

/-- A single substitution, of an element that is in a tree. -/
theorem substituted_substitute {d : Document} (hd : d.WellFormed) (options : Options)
    {id top : NodeId} (hword : d.isWord id "t" = true) (hparent : d.parent id = some top)
    (path : String) :
    Substituted d (d.substitute options id path) options [(id, path)] := by
  have hchanged := hd.substituted_setAttribute options hword path
  rw [substitute_eq]
  by_cases hcomments : options.mergeComments = true
  · rw [if_pos hcomments]
    apply hchanged.insertNew hcomments List.mem_cons_self
    · intro hmem
      obtain rfl : top = id := by simpa using hmem
      exact hd.acyclic top (below_of_parent hparent)
    · exact hd.mem_of_parent hparent
  · rw [if_neg hcomments]
    exact hchanged

/-! ### Several substitutions -/

namespace Substituted

variable {d d' d'' : Document} {options : Options} {targets targets' : List (NodeId × String)}

lemma refl (hd : d.WellFormed) (options : Options) : Substituted d d options [] where
  wellFormed := hd
  size_le := Nat.le_refl _
  isWord x hx := by cases hx
  kind_target x hx := by cases hx
  kind_eq _ _ _ := rfl
  isElement_new _ hx := isElement_of_size_le hx
  children_target x hx := by cases hx
  children_eq x _ :=
    List.filter_eq_self.2 fun _ hchild => decide_eq_true (hd.child_lt_size hchild)
  children_new x _ _ hchild hnew := absurd (hd.child_lt_size hchild) (Nat.not_lt.2 hnew)

/-- Elements stay elements of the same name. -/
lemma isElementIn_eq (h : Substituted d d' options targets) (x : NodeId)
    (namespaceName localName : String) :
    d'.isElementIn x namespaceName localName = d.isElementIn x namespaceName localName := by
  by_cases hx : x ∈ targets.map Prod.fst
  · obtain ⟨e, path, -, -, -, -, hold, hnew⟩ := h.kind_target x hx
    simp [isElementIn, element?, hold, hnew, NodeKind.element?, Element.isNamed]
  · by_cases hlt : x < d.size
    · simp only [isElementIn, element?, h.kind_eq x hlt hx]
    · have hnew : d'.element? x = none := by
        have hisElement := h.isElement_new x (Nat.le_of_not_lt hlt)
        rwa [isElement, NodeKind.isElement, Option.isSome_eq_false_iff,
          Option.isNone_iff_eq_none] at hisElement
      have hold : d.element? x = none := by
        have hisElement := isElement_of_size_le (Nat.le_of_not_lt hlt)
        rwa [isElement, NodeKind.isElement, Option.isSome_eq_false_iff,
          Option.isNone_iff_eq_none] at hisElement
      simp only [isElementIn, hnew, hold]

lemma lt_size (h : Substituted d d' options targets) {x : NodeId} (hx : x ∈ targets.map Prod.fst) :
    x < d.size := by
  obtain ⟨e, hkind⟩ := exists_element_of_isWord (h.isWord x hx)
  exact lt_size_of_isElement (isElement_of_kind hkind)

/-- Where no child is an element no comment comes. -/
lemma children_eq_of_forall (h : Substituted d d' options targets) {x : NodeId}
    (hx : x ∉ targets.map Prod.fst) (hnone : ∀ child ∈ d.children x, d.isElement child = false) :
    d'.children x = d.children x := by
  rw [← h.children_eq x hx, eq_comm, List.filter_eq_self]
  intro child hchild
  apply decide_eq_true
  by_contra hnew
  obtain ⟨-, target, htarget, hmem, -⟩ := h.children_new x hx child hchild (Nat.not_lt.1 hnew)
  obtain ⟨e, hkind⟩ := exists_element_of_isWord (h.isWord _ (List.mem_map_of_mem htarget))
  have hfalse := hnone _ hmem
  rw [isElement_of_kind hkind] at hfalse
  cases hfalse

/-- Substitutions after others: together they are substitutions of all these elements. -/
theorem trans (h : Substituted d d' options targets) (h' : Substituted d' d'' options targets') :
    Substituted d d'' options (targets ++ targets') := by
  have hmem : ∀ {x}, x ∈ (targets ++ targets').map Prod.fst ↔
      x ∈ targets.map Prod.fst ∨ x ∈ targets'.map Prod.fst := by
    intro x
    rw [List.map_append, List.mem_append]
  have hword : ∀ x ∈ targets'.map Prod.fst, d.isWord x "t" = true := fun x hx =>
    (h.isElementIn_eq x _ _).symm.trans (h'.isWord x hx)
  have hlt : ∀ x ∈ targets'.map Prod.fst, x < d.size := by
    intro x hx
    obtain ⟨e, hkind⟩ := exists_element_of_isWord (hword x hx)
    exact lt_size_of_isElement (isElement_of_kind hkind)
  -- what is new is no element, so the later substitutions leave it alone
  have hkeep : ∀ x, d.size ≤ x → x < d'.size → d''.kind x = d'.kind x := fun x hx hx' =>
    h'.kind_eq x hx' fun hmem => absurd (hlt x hmem) (Nat.not_lt.2 hx)
  constructor
  · exact h'.wellFormed
  · exact h.size_le.trans h'.size_le
  · intro x hx
    exact (hmem.1 hx).elim (h.isWord x) (hword x)
  · intro x hx
    by_cases hx' : x ∈ targets'.map Prod.fst
    · obtain ⟨e', path, before, after, hsplit, hlast, hold, hnew⟩ := h'.kind_target x hx'
      have hsplit' : targets ++ targets' = (targets ++ before) ++ (x, path) :: after := by
        rw [hsplit, List.append_assoc]
      by_cases hx'' : x ∈ targets.map Prod.fst
      · obtain ⟨e, path', -, -, -, -, hfirst, hsecond⟩ := h.kind_target x hx''
        obtain rfl : e' = e.setAttribute mergeAttribute path' :=
          NodeKind.element.inj (hold.symm.trans hsecond)
        rw [Element.setAttribute_setAttribute] at hnew
        exact ⟨e, path, _, after, hsplit', hlast, hfirst, hnew⟩
      · rw [h.kind_eq x (hlt x hx') hx''] at hold
        exact ⟨e', path, _, after, hsplit', hlast, hold, hnew⟩
    · obtain ⟨e, path, before, after, hsplit, hlast, hold, hnew⟩ :=
        h.kind_target x ((hmem.1 hx).resolve_right hx')
      have hlast' : x ∉ (after ++ targets').map Prod.fst := by
        rw [List.map_append, List.mem_append, not_or]
        exact ⟨hlast, hx'⟩
      have hlt' : x < d'.size := lt_size_of_isElement (isElement_of_kind hnew)
      refine ⟨e, path, before, after ++ targets', ?_, hlast', hold, ?_⟩
      · rw [hsplit, List.append_assoc, List.cons_append]
      · rw [h'.kind_eq x hlt' hx', hnew]
  · intro x hx hnot
    rw [hmem, not_or] at hnot
    rw [h'.kind_eq x (Nat.lt_of_lt_of_le hx h.size_le) hnot.2, h.kind_eq x hx hnot.1]
  · intro x hx
    by_cases hx' : x < d'.size
    · rw [isElement, hkeep x hx hx']
      exact h.isElement_new x hx
    · exact h'.isElement_new x (Nat.le_of_not_lt hx')
  · intro x hx
    by_cases hempty : options.placeholder.isEmpty = true
    · rw [if_pos hempty]
      by_cases hx' : x ∈ targets'.map Prod.fst
      · simpa [hempty] using h'.children_target x hx'
      · have hnone : d'.children x = [] := by
          simpa [hempty] using h.children_target x ((hmem.1 hx).resolve_right hx')
        rw [h'.children_eq_of_forall hx' (by simp [hnone]), hnone]
    · rw [if_neg hempty]
      by_cases hx' : x ∈ targets'.map Prod.fst
      · obtain ⟨text, htext, hnew, hkind⟩ : ∃ text, d''.children x = [text] ∧ d'.size ≤ text ∧
            d''.kind text = .text options.placeholder := by
          simpa [hempty] using h'.children_target x hx'
        exact ⟨text, htext, h.size_le.trans hnew, hkind⟩
      · obtain ⟨text, htext, hnew, hkind⟩ : ∃ text, d'.children x = [text] ∧ d.size ≤ text ∧
            d'.kind text = .text options.placeholder := by
          simpa [hempty] using h.children_target x ((hmem.1 hx).resolve_right hx')
        have hsame := h'.children_eq_of_forall hx' (by simp [htext, isElement, hkind]; rfl)
        have hlt' : text < d'.size := h.wellFormed.child_lt_size (by rw [htext]; simp)
        exact ⟨text, hsame.trans htext, hnew, (hkeep text hnew hlt').trans hkind⟩
  · intro x hx
    rw [hmem, not_or] at hx
    rw [← h.children_eq x hx.1, ← h'.children_eq x hx.2, List.filter_filter]
    refine List.filter_congr fun child _ => ?_
    have hsize := h.size_le
    rw [Bool.eq_iff_iff, Bool.and_eq_true, decide_eq_true_eq, decide_eq_true_eq]
    omega
  · intro x hx child hchild hnew
    rw [hmem, not_or] at hx
    by_cases hold : child < d'.size
    · have hchild' : child ∈ d'.children x := by
        rw [← h'.children_eq x hx.2]
        exact List.mem_filter.2 ⟨hchild, decide_eq_true hold⟩
      obtain ⟨hcomments, target, htarget, hplace, hkind⟩ := h.children_new x hx.1 child hchild' hnew
      exact ⟨hcomments, target, List.mem_append_left _ htarget, hplace,
        (hkeep child hnew hold).trans hkind⟩
    · obtain ⟨hcomments, target, htarget, hplace, hkind⟩ :=
        h'.children_new x hx.2 child hchild (Nat.le_of_not_lt hold)
      refine ⟨hcomments, target, List.mem_append_right _ htarget, ?_, hkind⟩
      rw [← h.children_eq x hx.1]
      exact List.mem_filter.2
        ⟨hplace, decide_eq_true (hlt _ (List.mem_map_of_mem htarget))⟩

end Substituted

end Document

end WordFields
