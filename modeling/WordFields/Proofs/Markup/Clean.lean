import Mathlib.Data.Bool.AllAny
import Mathlib.Data.List.Chain
import WordFields.Proofs.Markup.Acceptance
import WordFields.Proofs.Markup.FixedPoint

/-!
# Clean documents are read as they are

A document need not have been read to be written.  One whose trees are clean, with names that are
names, contents that do not end too early, no empty texts and no texts side by side, and with one
element at the top, is read as a document with the same trees (`Document.parse_toMarkup_of_areClean`).
Only namespaces are lost in the markup; the reader finds out again what the declarations in the
markup say (`Tree.resolved`).
-/

namespace WordFields

open Text Markup

/-! ## Clean trees -/

/-- The letters and digits, for which every character beyond ASCII counts, and four marks. -/
def IsNameChar (c : Char) : Prop :=
  c.isAlphanum = true ∨ 128 ≤ c.toNat ∨ c ∈ ['_', '-', '.', ':']

instance : DecidablePred IsNameChar := fun c =>
  inferInstanceAs (Decidable (c.isAlphanum = true ∨ 128 ≤ c.toNat ∨ c ∈ ['_', '-', '.', ':']))

/-- Whether a name comes from a word of letters, digits and marks. -/
def QualifiedName.IsClean (name : QualifiedName) : Prop :=
  ∃ raw : List Char, raw ≠ [] ∧ (∀ c ∈ raw, IsNameChar c) ∧ name = ofChars raw

structure Element.IsClean (e : Element) : Prop where
  name : e.name.IsClean
  keys : ∀ a ∈ e.attributes, a.name.IsClean
  nodup : (e.attributes.map Attribute.name).Nodup

namespace NodeKind

def isText : NodeKind → Bool
  | text _ => true
  | _ => false

/-- Whether the content of a node of a kind without children can stand between the delimiters of
the kind. -/
def IsClean : NodeKind → Prop
  | document => False
  | element _ => False
  | text value => value ≠ ""
  | cdata value => ¬ "]]>".toList <:+: value.toList
  | comment value =>
    ¬ "--".toList <:+: value.toList ∧ value.toList.head? ≠ some '-' ∧
      value.toList.head? ≠ some '>' ∧ value.toList.getLast? ≠ some '-'
  | declaration value =>
    (∃ c rest, value.toList = "xml".toList ++ c :: rest ∧ isSpace c = true) ∧
      ¬ "?>".toList <:+: value.toList
  | processing value =>
    (∃ c rest, value.toList = c :: rest ∧ (c.isAlpha = true ∨ 128 ≤ c.toNat)) ∧
      ¬ "?>".toList <:+: value.toList ∧ value ≠ "xml" ∧
        ∀ c rest, value.toList = "xml".toList ++ c :: rest → isSpace c = false
  | doctype value =>
    value ≠ "" ∧ trim value.toList = value.toList ∧
      ∀ c ∈ value.toList, c ∉ ['"', '\x27', '[', ']', '<', '>']

end NodeKind

namespace Tree

def kind : Tree → NodeKind
  | node kind _ => kind

/-- Whether two trees can be side by side: there is no telling where one text ends and the other
begins. -/
def Apart (tree next : Tree) : Prop :=
  ¬ (tree.kind.isText = true ∧ next.kind.isText = true)

inductive IsClean : Tree → Prop
  | leaf {kind : NodeKind} (clean : kind.IsClean) : IsClean (node kind [])
  | element {e : Element} {below : List Tree} (clean : e.IsClean) (apart : below.IsChain Apart)
      (inner : ∀ tree ∈ below, tree.IsClean) : IsClean (node (.element e) below)

end Tree

/-- Clean trees as they can be at the top of a document. -/
structure AreClean (trees : List Tree) : Prop where
  clean : ∀ tree ∈ trees, tree.IsClean
  apart : trees.IsChain Tree.Apart
  one_element : trees.countP (fun tree => tree.kind.isElement) = 1
  blank : ∀ value, .node (.text value) [] ∈ trees → allBlank value.toList = true

/-! ## Namespaces that the markup says -/

/-- The bindings that the attributes of an element declare. -/
def Element.bindings (e : Element) : List Binding :=
  e.attributes.filterMap fun a => Binding.ofAttribute? a.name.toChars a.value

/-- The element with the namespaces that its prefixes stand for. -/
def Element.resolved (scopes : List (List Binding)) (e : Element) : Element :=
  { e with
    namespaceName := Builder.resolve? scopes e.name.nsPrefix
    attributes := e.attributes.map fun a =>
      { a with
        namespaceName :=
          if a.name.nsPrefix.isSome then Builder.resolve? scopes a.name.nsPrefix else none } }

mutual

/-- The tree with the namespaces that the declarations in it and around it give. -/
def Tree.resolved (scopes : List (List Binding)) : Tree → Tree
  | .node (.element e) below =>
    .node (.element (e.resolved (e.bindings :: scopes))) (resolvedTrees (e.bindings :: scopes) below)
  | .node kind below => .node kind (resolvedTrees scopes below)

def resolvedTrees (scopes : List (List Binding)) : List Tree → List Tree
  | [] => []
  | tree :: trees => tree.resolved scopes :: resolvedTrees scopes trees

end

lemma Element.bindings_ofElement (e : Element) : (Opening.ofElement e).bindings = e.bindings := by
  simp [Opening.bindings, Opening.ofElement, Element.bindings, List.filterMap_map]

/-! ## Names -/

namespace IsNameChar

variable {c : Char}

lemma ne_of_not {d : Char} (h : IsNameChar c) (hd : ¬ IsNameChar d) : c ≠ d := by
  rintro rfl
  exact hd h

lemma isPlain (h : IsNameChar c) : IsPlain c :=
  ⟨h.ne_of_not (by decide), h.ne_of_not (by decide), h.ne_of_not (by decide)⟩

lemma beginsTag (h : IsNameChar c) : BeginsTag c :=
  ⟨h.ne_of_not (by decide), h.ne_of_not (by decide), h.ne_of_not (by decide)⟩

lemma isSpace_eq (h : IsNameChar c) : isSpace c = false := by
  simp only [isSpace, Bool.or_eq_false_iff, decide_eq_false_iff_not]
  exact ⟨⟨⟨h.ne_of_not (by decide), h.ne_of_not (by decide)⟩, h.ne_of_not (by decide)⟩,
    h.ne_of_not (by decide)⟩

lemma continuesKey_eq (h : IsNameChar c) : continuesKey c = true := by
  have hequals : c ≠ '=' := h.ne_of_not (by decide)
  simp [continuesKey, hequals, h.isSpace_eq]

end IsNameChar

namespace QualifiedName.IsClean

variable {name : QualifiedName}

lemma toChars_ne_nil (h : name.IsClean) : name.toChars ≠ [] := by
  obtain ⟨raw, hraw, -, rfl⟩ := h
  rwa [toChars_ofChars]

lemma isNameChar (h : name.IsClean) : ∀ c ∈ name.toChars, IsNameChar c := by
  obtain ⟨raw, -, hchars, rfl⟩ := h
  rwa [toChars_ofChars]

/-- A clean name is known by its spelling. -/
lemma ofChars_toChars (h : name.IsClean) : ofChars name.toChars = name := by
  obtain ⟨raw, -, -, rfl⟩ := h
  rw [toChars_ofChars]

lemma isKey (h : name.IsClean) : IsKey name.toChars := by
  obtain ⟨c, rest, hname⟩ := List.exists_cons_of_ne_nil h.toChars_ne_nil
  have hchars := h.isNameChar
  rw [hname] at hchars ⊢
  obtain ⟨hc, hrest⟩ := List.forall_mem_cons.1 hchars
  exact ⟨c, rest, rfl, hc.isSpace_eq, fun d hd => (hrest d hd).continuesKey_eq⟩

/-- A clean name is what an end tag says it is. -/
lemma endTagName_toChars (h : name.IsClean) : endTagName name.toChars = name.toChars :=
  endTagName_eq_self fun c hc => (h.isNameChar c hc).isSpace_eq

end QualifiedName.IsClean

namespace Element.IsClean

variable {e : Element}

lemma isOrdinary (h : e.IsClean) : e.IsOrdinary where
  name_ne_nil := h.name.toChars_ne_nil
  name c hc := ⟨(h.name.isNameChar c hc).isPlain, (h.name.isNameChar c hc).beginsTag.2.2⟩
  keys a ha c hc := ((h.keys a ha).isNameChar c hc).isPlain

lemma keyed (h : e.IsClean) : (Opening.ofElement e).Keyed where
  isKey := by
    rintro _ hmem
    obtain ⟨a, ha, rfl⟩ := List.mem_map.1 hmem
    exact (h.keys a ha).isKey
  nodup := by
    have hkeys : (Opening.ofElement e).attributes.map Prod.fst =
        (e.attributes.map Attribute.name).map QualifiedName.toChars := by
      simp [Opening.ofElement]
    rw [hkeys]
    refine h.nodup.map_on fun name hname name' hname' heq => ?_
    obtain ⟨a, ha, rfl⟩ := List.mem_map.1 hname
    obtain ⟨a', ha', rfl⟩ := List.mem_map.1 hname'
    rw [← (h.keys a ha).ofChars_toChars, heq, (h.keys a' ha').ofChars_toChars]

lemma isTag (h : e.IsClean) : IsTag (Opening.ofElement e).tag where
  not_space c hc := (h.name.isNameChar c hc).isSpace_eq
  begins c hc := (h.name.isNameChar c (List.mem_of_mem_head? hc)).beginsTag
  begins_rest := Opening.begins_rest _
  fits := by
    have hcloses : Closes e.name.toChars :=
      closes_of_isPlain fun c hc => (h.name.isNameChar c hc).isPlain
    exact foldlM_tagStep_ne_none ((List.append_nil e.name.toChars).symm ▸ hcloses)
  closes _ := closes_of_isPlain fun c hc => (h.name.isNameChar c hc).isPlain

/-- Only the namespaces of an element depend on the place at which its tag is read. -/
lemma element_ofElement (h : e.IsClean) (scopes : List (List Binding)) :
    (Opening.ofElement e).element scopes = e.resolved (e.bindings :: scopes) := by
  have hname : QualifiedName.ofChars (Opening.ofElement e).name = e.name := h.name.ofChars_toChars
  rw [Opening.element, bindings_ofElement, Builder.elementOf, hname, Element.resolved,
    Opening.ofElement, List.map_map]
  congr 1
  refine List.map_congr_left fun a ha => ?_
  simp only [Function.comp_apply, (h.keys a ha).ofChars_toChars]

end Element.IsClean

/-! ## Contents -/

namespace Markup

namespace Leaf

lemma fits_of_isClean {leaf : Leaf} (h : leaf.kind.IsClean) : leaf.Fits := by
  cases leaf with
  | doctype value => simpa [kind, Fits] using h.2.1
  | _ => trivial

lemma isInstruction {c : Char} {rest : List Char} (hc : c ≠ '>')
    (h : ¬ ['?', '>'] <:+: c :: rest) : IsInstruction (c :: rest) :=
  ⟨startsIn_cons.2 hc, @endsAt_of_absent ['?'] _ '>' (by decide) h⟩

lemma readable_of_isClean {leaf : Leaf} (h : leaf.kind.IsClean) : leaf.event.Readable := by
  cases leaf with
  | text value =>
    have hne : value ≠ [] := by
      rintro rfl
      exact h rfl
    exact ⟨escapeText_ne_nil hne, lt_not_mem_escapeText value⟩
  | cdata value =>
    simp only [kind, NodeKind.IsClean, String.toList_ofList] at h
    exact @endsAt_of_absent [']', ']'] _ '>' (by decide) h
  | comment value =>
    simp only [kind, NodeKind.IsClean, String.toList_ofList] at h
    exact @endsAt_of_absent ['-', '-'] _ '>' (by decide) fun hoccurs =>
      h.1 ((List.prefix_append ['-', '-'] ['>']).isInfix.trans hoccurs)
  | declaration value =>
    simp only [kind, NodeKind.IsClean, String.toList_ofList] at h
    obtain ⟨⟨c, rest, rfl, hc⟩, hoccurs⟩ := h
    exact ⟨hc, isInstruction (by decide) hoccurs⟩
  | processing value =>
    simp only [kind, NodeKind.IsClean, String.toList_ofList] at h
    obtain ⟨⟨c, rest, hvalue, hc⟩, hoccurs, hne, hspace⟩ := h
    have hbegins : c ≠ '>' := by
      rintro rfl
      revert hc
      decide
    refine ⟨?_, hvalue ▸ isInstruction hbegins (hvalue ▸ hoccurs)⟩
    unfold isDeclaration
    split
    next hafter =>
      rw [after?_eq_some_iff.1 hafter] at hne
      exact absurd rfl hne
    next d rest' hafter => exact hspace d rest' (after?_eq_some_iff.1 hafter)
    next => rfl
  | doctype value =>
    simp only [kind, NodeKind.IsClean, String.toList_ofList] at h
    obtain ⟨-, htrim, hchars⟩ := h
    refine ⟨foldlM_doctypeStep_of_forall (fun c hc => ?_) 0, fun c hc => ?_⟩
    · exact ⟨fun heq => hchars c hc (by simp [heq]), fun heq => hchars c hc (by simp [heq])⟩
    · rw [← htrim] at hc
      have hnot := startsIn_trim value c hc
      exact Bool.eq_false_iff.2 fun hspace => Bool.eq_false_iff.1 hnot (isBlank_of_isSpace hspace)

lemma proper_of_isClean {leaf : Leaf} (h : leaf.kind.IsClean) : leaf.event.Proper := by
  cases leaf with
  | doctype value =>
    rintro rfl
    exact h.1 rfl
  | _ => trivial

lemma exists_kind_eq {kind : NodeKind} (h : kind.IsClean) : ∃ leaf : Leaf, leaf.kind = kind := by
  cases kind with
  | document => exact h.elim
  | element e => exact h.elim
  | text value => exact ⟨.text value.toList, by rw [Leaf.kind, String.ofList_toList]⟩
  | cdata value => exact ⟨.cdata value.toList, by rw [Leaf.kind, String.ofList_toList]⟩
  | comment value => exact ⟨.comment value.toList, by rw [Leaf.kind, String.ofList_toList]⟩
  | declaration value => exact ⟨.declaration value.toList, by rw [Leaf.kind, String.ofList_toList]⟩
  | processing value => exact ⟨.processing value.toList, by rw [Leaf.kind, String.ofList_toList]⟩
  | doctype value => exact ⟨.doctype value.toList, by rw [Leaf.kind, String.ofList_toList]⟩

end Leaf

end Markup

namespace Tree.IsClean

lemma of_leaf {leaf : Leaf} (h : (node leaf.kind []).IsClean) : leaf.kind.IsClean := by
  generalize hkind : leaf.kind = kind at h
  cases h with
  | leaf clean => exact clean
  | element clean apart inner => cases leaf <;> cases hkind

lemma of_element {e : Element} {below : List Tree} (h : (node (.element e) below).IsClean) :
    e.IsClean ∧ below.IsChain Apart ∧ ∀ tree ∈ below, tree.IsClean := by
  cases h with
  | leaf clean => exact clean.elim
  | element clean apart inner => exact ⟨clean, apart, inner⟩

end Tree.IsClean

namespace Markup.Content

/-- A clean tree in front of trees that a content tells. -/
lemma exists_tells_cons {tree : Tree} (h : tree.IsClean) {rest : Content} {trees : List Tree}
    (hrest : rest.Tells trees) : ∃ content : Content, content.Tells (tree :: trees) := by
  induction h generalizing rest trees with
  | leaf clean =>
    obtain ⟨leaf, rfl⟩ := Leaf.exists_kind_eq clean
    exact ⟨_, .leaf leaf hrest⟩
  | @element e below clean apart inner ih =>
    obtain ⟨content, hcontent⟩ : ∃ content : Content, content.Tells below := by
      clear apart inner
      induction below with
      | nil => exact ⟨.nil, .nil⟩
      | cons tree below ihBelow =>
        obtain ⟨hhead, htail⟩ := List.forall_mem_cons.1 ih
        obtain ⟨content, hcontent⟩ := ihBelow htail
        exact hhead hcontent
    exact ⟨_, .element e hcontent hrest⟩

lemma exists_tells {trees : List Tree} (h : ∀ tree ∈ trees, tree.IsClean) :
    ∃ content : Content, content.Tells trees := by
  induction trees with
  | nil => exact ⟨.nil, .nil⟩
  | cons tree trees ih =>
    obtain ⟨hhead, htail⟩ := List.forall_mem_cons.1 h
    obtain ⟨content, hcontent⟩ := ih htail
    exact exists_tells_cons hhead hcontent

namespace Tells

variable {content : Content} {trees : List Tree}

lemma fits (h : content.Tells trees) (hclean : ∀ tree ∈ trees, tree.IsClean) : content.Fits := by
  induction h with
  | nil => trivial
  | leaf head tail ih =>
    obtain ⟨hhead, htail⟩ := List.forall_mem_cons.1 hclean
    exact ⟨Leaf.fits_of_isClean hhead.of_leaf, ih htail⟩
  | element e inner tail ihInner ihTail =>
    obtain ⟨hhead, htail⟩ := List.forall_mem_cons.1 hclean
    obtain ⟨he, -, hbelow⟩ := hhead.of_element
    exact ⟨he.keyed, ihInner hbelow, ihTail htail⟩

/-- Clean trees are built with the namespaces that the reader finds out. -/
lemma trees_eq (h : content.Tells trees) (hclean : ∀ tree ∈ trees, tree.IsClean)
    (scopes : List (List Binding)) : content.trees scopes = resolvedTrees scopes trees := by
  induction h generalizing scopes with
  | nil => rfl
  | leaf head tail ih =>
    obtain ⟨-, htail⟩ := List.forall_mem_cons.1 hclean
    rw [Content.trees, resolvedTrees, ih htail]
    cases head <;> rfl
  | element e inner tail ihInner ihTail =>
    obtain ⟨hhead, htail⟩ := List.forall_mem_cons.1 hclean
    obtain ⟨he, -, hbelow⟩ := hhead.of_element
    rw [Content.trees, resolvedTrees, Tree.resolved, ihInner hbelow, ihTail htail,
      he.element_ofElement, Element.bindings_ofElement]

lemma textFirst_events (h : content.Tells trees) :
    textFirst content.events = trees.head?.any fun tree => tree.kind.isText := by
  cases h with
  | nil => rfl
  | leaf head tail => cases head <;> rfl
  | element e inner tail => exact Opening.textFirst_events

lemma separated (h : content.Tells trees) (hclean : ∀ tree ∈ trees, tree.IsClean)
    (hapart : trees.IsChain Tree.Apart) : Separated content.events := by
  induction h with
  | nil => trivial
  | @leaf head rest trees tail ih =>
    obtain ⟨-, htail⟩ := List.forall_mem_cons.1 hclean
    obtain ⟨hnext, hrest⟩ := List.isChain_cons.1 hapart
    refine ⟨fun htext => ?_, ih htail hrest⟩
    rw [tail.textFirst_events]
    cases htrees : trees.head? with
    | none => rfl
    | some next =>
      have hleaf : head.kind.isText = true := by
        cases head <;> first | rfl | cases htext
      exact Bool.eq_false_iff.2 fun hnext' => hnext next htrees ⟨hleaf, hnext'⟩
  | element e inner tail ihInner ihTail =>
    obtain ⟨hhead, htail⟩ := List.forall_mem_cons.1 hclean
    obtain ⟨-, hbelow, hinner⟩ := hhead.of_element
    exact Opening.separated_events_iff.2 ⟨ihInner hinner hbelow, ihTail htail hapart.tail⟩

/-- Every event of clean trees is read as it is, wherever it is written. -/
lemma forall_events (h : content.Tells trees) (hclean : ∀ tree ∈ trees, tree.IsClean) :
    ∀ event ∈ content.events, event.Written ∧ event.Sealed ∧ event.Proper := by
  induction h with
  | nil => exact fun event hevent => absurd hevent List.not_mem_nil
  | leaf head tail ih =>
    obtain ⟨hhead, htail⟩ := List.forall_mem_cons.1 hclean
    have htag : head.event.tag? = none := by cases head <;> rfl
    have hreadable := Leaf.readable_of_isClean hhead.of_leaf
    exact List.forall_mem_cons.2 ⟨⟨.of_tag? hreadable htag, Event.sealed_of_tag? htag,
      Leaf.proper_of_isClean hhead.of_leaf⟩, ih htail⟩
  | element e inner tail ihInner ihTail =>
    obtain ⟨hhead, htail⟩ := List.forall_mem_cons.1 hclean
    obtain ⟨he, -, hbelow⟩ := hhead.of_element
    have hsealed : Closes (Opening.ofElement e).tag.content :=
      Opening.tagMarkup_eq e ▸ Document.closes_tagMarkup he.isOrdinary
    have hlast : (Opening.ofElement e).tag.content.getLast? ≠ some '/' :=
      Opening.tagMarkup_eq e ▸ Document.getLast?_tagMarkup he.isOrdinary
    rw [Content.events, List.forall_mem_append, Opening.forall_events_iff]
    refine ⟨?_, ihTail htail⟩
    split
    · refine ⟨⟨he.isTag, ?_⟩, ?_, fun hnil => ?_⟩
      · rintro tag ⟨⟩
        exact ⟨_, he.keyed, rfl⟩
      · rintro tag ⟨⟩
        exact hsealed
      · exact he.name.toChars_ne_nil (List.append_eq_nil_iff.1 hnil).1
    · refine ⟨⟨⟨he.isTag, ?_⟩, ?_, ?_⟩, ihInner hbelow, ?_, Event.sealed_of_tag? rfl, trivial⟩
      · rintro tag ⟨⟩
        exact ⟨_, he.keyed, rfl⟩
      · rintro tag ⟨⟩
        exact hsealed
      · exact hlast
      · refine .of_tag? ⟨closes_of_isPlain fun c hc => ?_, he.name.endTagName_toChars⟩ rfl
        exact (he.name.isNameChar c hc).isPlain

lemma roots_eq (h : content.Tells trees) :
    content.roots = trees.countP fun tree => tree.kind.isElement := by
  induction h with
  | nil => rfl
  | leaf head tail ih =>
    have hkind : head.kind.isElement = false := by cases head <;> rfl
    simpa [Content.roots, Tree.kind, hkind] using ih
  | element e inner tail ihInner ihTail =>
    simpa [Content.roots, Tree.kind, NodeKind.isElement, NodeKind.element?] using ihTail

lemma blank (h : content.Tells trees)
    (hblank : ∀ value, .node (.text value) [] ∈ trees → allBlank value.toList = true) :
    content.Blank := by
  induction h with
  | nil => trivial
  | leaf head tail ih =>
    have hrest := ih fun value hvalue => hblank value (List.mem_cons_of_mem _ hvalue)
    cases head with
    | text value =>
      refine ⟨?_, hrest⟩
      simpa using hblank (String.ofList value) List.mem_cons_self
    | _ => exact hrest
  | element e inner tail _ ihTail =>
    exact ihTail fun value hvalue => hblank value (List.mem_cons_of_mem _ hvalue)

end Tells

end Markup.Content

namespace Document

/-- A document that shows clean trees is read again from its markup, with the same trees but for
namespaces: these are what the declarations in the trees say. -/
theorem parse_toMarkup_of_areClean {d : Document} {trees : List Tree}
    (h : d.Shows root (.node .document trees)) (hclean : AreClean trees) :
    ∃ d', parse d.toMarkup = .ok d' ∧ d'.Displays (resolvedTrees [] trees) := by
  obtain ⟨content, htells⟩ := Content.exists_tells hclean.clean
  have hevents := htells.forall_events hclean.clean
  have hroots : content.roots = 1 := htells.roots_eq.trans hclean.one_element
  have hwritten : ∀ event ∈ content.events, event.Written := fun event hevent =>
    (hevents event hevent).1
  have hbuilds := (Content.drafts (htells.fits hclean.clean) (htells.blank hclean.blank) hroots
    (.of_written hwritten) (htells.separated hclean.clean hclean.apart)).builds hwritten
  have hdisplays := hbuilds.displays
  refine ⟨ofForest (content.trees []), ?_, htells.trees_eq hclean.clean [] ▸ hdisplays⟩
  rw [parse, toMarkup, String.toList_ofList, h.toChars_eq htells]
  exact hbuilds.parseChars_eq (fun event hevent => (hevents event hevent).2.1)
    fun event hevent => (hevents event hevent).2.2

/-! ## Characters of markup in a document -/

/-- An element of a tree that has been made and not read, without namespaces. -/
def madeElement (name : String) (attributes : List (String × String)) : Element where
  name := .ofString name
  namespaceName := none
  attributes := attributes.map fun (key, value) => ⟨.ofString key, none, value⟩

/-- Trees with delimiters of all kinds in their texts. -/
def madeTrees : List Tree :=
  [.node (.declaration "xml version=\"1.0\"") [], .node (.text "\n") [],
    .node (.doctype "w:r") [],
    .node (.element (madeElement "w:r" [("xmlns:w", "urn:w"), ("k", "\"'<a b=\"/>&amp;\n")]))
      [.node (.text "]]> <!-- &lt; ?>") [], .node (.cdata "</w:r>]]") [],
        .node (.comment "<->") [], .node (.processing "go <?") [],
        .node (.element (madeElement "w:é" [])) []]]

lemma isClean_madeElement {name : String} {attributes : List (String × String)}
    (hname : name.toList ≠ [] ∧ name.toList.all (IsNameChar ·) = true)
    (hkeys : ∀ a ∈ attributes, a.1.toList ≠ [] ∧ a.1.toList.all (IsNameChar ·) = true)
    (hnodup : (attributes.map fun a => QualifiedName.ofString a.1).Nodup) :
    (madeElement name attributes).IsClean where
  name := ⟨name.toList, hname.1, List.all_iff_forall_prop.1 hname.2, rfl⟩
  keys a ha := by
    obtain ⟨⟨key, value⟩, hmem, rfl⟩ := List.mem_map.1 ha
    exact ⟨key.toList, (hkeys _ hmem).1, List.all_iff_forall_prop.1 (hkeys _ hmem).2, rfl⟩
  nodup := by
    rw [madeElement, List.map_map]
    exact hnodup

lemma isClean_of_mem_madeTrees : ∀ tree ∈ madeTrees, tree.IsClean := by
  have hbreak : "\n" ≠ "" := by decide
  have htext : "]]> <!-- &lt; ?>" ≠ "" := by decide
  have hcdata : ¬ "]]>".toList <:+: "</w:r>]]".toList := by decide
  have hdoctype : ∀ c ∈ "w:r".toList, c ∉ ['"', '\x27', '[', ']', '<', '>'] :=
    List.all_iff_forall_prop.1 (by decide)
  have hprocessing : (NodeKind.processing "go <?").IsClean := by
    refine ⟨⟨'g', _, rfl, by decide⟩, by decide, by decide, fun c rest heq => ?_⟩
    have hhead := congrArg List.head? heq
    exact absurd hhead (by simp)
  simp only [madeTrees, List.forall_mem_cons]
  refine ⟨.leaf ⟨⟨' ', _, rfl, by decide⟩, by decide⟩, .leaf hbreak,
    .leaf ⟨by decide, by decide, hdoctype⟩, .element ?_ ?_ ?_,
    fun _ hmem => absurd hmem List.not_mem_nil⟩
  · exact isClean_madeElement (by decide) (by decide) (by decide)
  · simp [Tree.Apart, Tree.kind, NodeKind.isText]
  · simp only [List.forall_mem_cons]
    refine ⟨.leaf htext, .leaf hcdata, .leaf ⟨by decide, by decide, by decide, by decide⟩,
      .leaf hprocessing, .element ?_ .nil ?_, fun _ hmem => absurd hmem List.not_mem_nil⟩
    · exact isClean_madeElement (by decide) (by decide) (by decide)
    · exact fun _ hmem => absurd hmem List.not_mem_nil

lemma areClean_madeTrees : AreClean madeTrees where
  clean := isClean_of_mem_madeTrees
  apart := by simp [madeTrees, Tree.Apart, Tree.kind, NodeKind.isText]
  one_element := by rfl
  blank value hvalue := by
    have hvalue : value = "\n" := by simpa [madeTrees] using hvalue
    rw [hvalue]
    decide

/-- The delimiters in the texts do not end them, and the prefixes get the namespace that is declared
for them. -/
theorem parse_toMarkup_of_areClean_made :
    let d := ofForest madeTrees
    d.Shows root (.node .document madeTrees) ∧ AreClean madeTrees ∧
      ∃ d', parse d.toMarkup = .ok d' ∧ d'.Displays (resolvedTrees [] madeTrees) :=
  ⟨(displays_ofForest _).shows_root, areClean_madeTrees,
    parse_toMarkup_of_areClean (displays_ofForest _).shows_root areClean_madeTrees⟩

example : (ofForest madeTrees).toMarkup =
    "<?xml version=\"1.0\"?>\n<!DOCTYPE w:r><w:r xmlns:w=\"urn:w\" " ++
      "k=\"&quot;&apos;&lt;a b=&quot;/&gt;&amp;amp;\n\">]]&gt; &lt;!-- &amp;lt; ?&gt;" ++
      "<![CDATA[</w:r>]]]]><!--<->--><?go <??><w:é/></w:r>" := by
  decide +kernel

end Document

end WordFields
