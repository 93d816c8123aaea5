import WordFields.Proofs.Markup.Clean

/-!
# How a document is arranged that has been read

The reader makes a node for each event but end tags, and puts it below the element that is open, so
the document has its nodes in the order in which they have been met.  `Document.IsOrderly` says this
and what else is known of every document that has been read (`Document.isOrderly_of_parse`): only
elements have something below them, texts are not empty and not side by side, and attributes are
told apart by their names.

The content of the markup is what the proof goes by.  Where an event is read, the reader vouches for
what is in it, and where two events are read one behind the other, it vouches for them not both
being texts.
-/

namespace WordFields

open Text Markup

namespace Markup

/-- What is written as separate texts is not side by side in the tree. -/
lemma Content.Tells.isChain {content : Content} {trees : List Tree} (h : content.Tells trees)
    (hseparated : Separated content.events) : trees.IsChain Tree.Apart := by
  induction h with
  | nil => exact .nil
  | @leaf head rest trees tail ih =>
    refine List.isChain_cons.2 ⟨fun next hnext htexts => ?_, ih hseparated.2⟩
    have htext : head.event.isText = true := by
      cases head <;> first | rfl | cases htexts.1
    have hfirst := hseparated.1 htext
    rw [tail.textFirst_events, Option.mem_def.1 hnext, Option.any_some] at hfirst
    exact Bool.eq_false_iff.1 hfirst htexts.2
  | element e inner tail _ ihTail =>
    refine List.isChain_cons.2 ⟨fun next _ htexts => ?_, ihTail ?_⟩
    · cases htexts.1
    · exact (Opening.separated_events_iff.1 hseparated).2

/-- The attributes of an element have the keys of its tag as their names. -/
lemma Opening.names_element (opening : Opening) (scopes : List (List Binding)) :
    (opening.element scopes).attributes.map (fun a => a.name.toString) =
      (opening.attributes.map Prod.fst).map String.ofList := by
  simp only [element, Builder.elementOf, List.map_map]
  refine List.map_congr_left fun a _ => ?_
  simp [QualifiedName.toString, QualifiedName.toChars_ofChars]

end Markup

namespace Document

variable {d : Document}

lemma Shows.map_kind {ids : List NodeId} {trees : List Tree} (h : List.Forall₂ d.Shows ids trees) :
    ids.map d.kind = trees.map Tree.kind := by
  induction h with
  | nil => rfl
  | @cons id tree ids trees head _ ih =>
    obtain ⟨kind, below⟩ := tree
    rw [List.map_cons, List.map_cons, ih, head.kind_eq]
    rfl

/-- Whether two nodes are not both texts. -/
def Apart (d : Document) (id next : NodeId) : Prop :=
  ¬ ((d.kind id).isText = true ∧ (d.kind next).isText = true)

lemma isChain_apart {ids : List NodeId} {trees : List Tree} (h : List.Forall₂ d.Shows ids trees)
    (hchain : trees.IsChain Tree.Apart) : ids.IsChain d.Apart := by
  have hkinds : (trees.map Tree.kind).IsChain fun kind next =>
      ¬ (kind.isText = true ∧ next.isText = true) := (List.isChain_map _).2 hchain
  rw [← Shows.map_kind h] at hkinds
  exact (List.isChain_map d.kind).1 hkinds

/-- What the reader vouches for at a node that it has made. -/
structure OrderlyAt (d : Document) (id : NodeId) : Prop where
  isElement_of_mem : ∀ {child : NodeId}, child ∈ d.children id → d.isElement id = true
  text_ne_empty : ∀ {value : String}, d.kind id = .text value → value ≠ ""
  apart : (d.children id).IsChain d.Apart
  nodup_names : ∀ {e : Element}, d.kind id = .element e →
    (e.attributes.map fun a => a.name.toString).Nodup

lemma OrderlyAt.of_leaf {leaf : Leaf} {id : NodeId} (h : d.Shows id (.node leaf.kind []))
    (hreadable : leaf.event.Readable) : d.OrderlyAt id where
  isElement_of_mem hchild := by
    rw [h.children_nil] at hchild
    cases hchild
  text_ne_empty {value} hkind := by
    rw [h.kind_eq] at hkind
    cases leaf with
    | text raw =>
      obtain rfl : String.ofList raw = value := NodeKind.text.inj hkind
      intro hempty
      obtain rfl : raw = [] := String.ofList_injective hempty
      exact hreadable.1 rfl
    | _ => cases hkind
  apart := by
    rw [h.children_nil]
    exact .nil
  nodup_names hkind := by
    rw [h.kind_eq] at hkind
    cases leaf <;> cases hkind

lemma OrderlyAt.of_element {opening : Opening} {content : Content} {scopes : List (List Binding)}
    {id : NodeId} (h : d.Shows id (.node (.element (opening.element scopes))
      (content.trees (opening.bindings :: scopes)))) (hkeyed : opening.Keyed)
    (hseparated : Separated content.events) : d.OrderlyAt id where
  isElement_of_mem _ := by rw [isElement, h.kind_eq]; rfl
  text_ne_empty hkind := by
    rw [h.kind_eq] at hkind
    cases hkind
  apart := isChain_apart h.forest ((content.tells_trees _).isChain hseparated)
  nodup_names hkind := by
    rw [h.kind_eq] at hkind
    cases hkind
    rw [opening.names_element]
    exact hkeyed.nodup.map fun _ _ heq => String.ofList_injective heq

/-- A handle that no node has reads as a node with nothing to be asked about. -/
lemma OrderlyAt.of_size_le {id : NodeId} (h : d.size ≤ id) : d.OrderlyAt id := by
  have hkind : d.kind id = .document := by rw [kind, node_of_size_le h]; rfl
  have hchildren := children_of_size_le h
  refine ⟨fun hchild => ?_, fun hvalue => ?_, ?_, fun hvalue => ?_⟩
  · rw [hchildren] at hchild
    cases hchild
  · rw [hkind] at hvalue
    cases hvalue
  · rw [hchildren]
    exact .nil
  · rw [hkind] at hvalue
    cases hvalue

/-- Every node of a content that has been read is orderly. -/
lemma orderlyAt_of_content (hd : d.WellFormed) {content : Content} {scopes : List (List Binding)}
    {ids : List NodeId} (h : List.Forall₂ d.Shows ids (content.trees scopes)) (hfits : content.Fits)
    (hreadable : ∀ event ∈ content.events, event.Readable)
    (hseparated : Separated content.events) :
    ∀ id ∈ ids.flatMap fun id => id :: d.descendants id, d.OrderlyAt id := by
  induction content generalizing scopes ids with
  | nil =>
    obtain rfl := List.forall₂_nil_right_iff.1 h
    exact fun id hid => absurd hid List.not_mem_nil
  | leaf head rest ih =>
    obtain ⟨id, ids, hid, hids, rfl⟩ := List.forall₂_cons_right_iff.1 h
    obtain ⟨hhead, hrest⟩ := List.forall_mem_cons.1 hreadable
    rw [List.flatMap_cons, List.forall_mem_append, List.forall_mem_cons, hid.descendants_nil hd]
    exact ⟨⟨.of_leaf hid hhead, fun _ hmem => absurd hmem List.not_mem_nil⟩,
      ih hids hfits.2 hrest hseparated.2⟩
  | element opening content rest ihContent ihRest =>
    obtain ⟨id, ids, hid, hids, rfl⟩ := List.forall₂_cons_right_iff.1 h
    obtain ⟨hkeyed, hcontent, hrest⟩ := hfits
    obtain ⟨hinner, htail⟩ := Opening.separated_events_iff.1 hseparated
    rw [Content.events, List.forall_mem_append, Opening.forall_events_iff] at hreadable
    obtain ⟨hopening, hbehind⟩ := hreadable
    have hevents : ∀ event ∈ content.events, event.Readable := by
      split at hopening
      next hempty =>
        rw [List.isEmpty_iff.1 hempty]
        exact fun event hevent => absurd hevent List.not_mem_nil
      next => exact hopening.2.1
    rw [List.flatMap_cons, List.forall_mem_append, List.forall_mem_cons, hd.descendants_eq_flatMap]
    exact ⟨⟨.of_element hid hkeyed hinner, ihContent hid.forest hcontent hevents hinner⟩,
      ihRest hids hrest hbehind htail⟩

/-! ## The document node -/

lemma countP_isElement {content : Content} {ids : List NodeId} {scopes : List (List Binding)}
    (h : List.Forall₂ d.Shows ids (content.trees scopes)) :
    ids.countP d.isElement = content.roots := by
  rw [(content.tells_trees scopes).roots_eq]
  calc ids.countP d.isElement = (ids.map d.kind).countP NodeKind.isElement := List.countP_map.symm
    _ = ((content.trees scopes).map Tree.kind).countP NodeKind.isElement := by rw [Shows.map_kind h]
    _ = (content.trees scopes).countP fun tree => tree.kind.isElement := List.countP_map

lemma blank_of_content {content : Content} {ids : List NodeId} {scopes : List (List Binding)}
    (h : List.Forall₂ d.Shows ids (content.trees scopes)) (hblank : content.Blank) {id : NodeId}
    {value : String} (hid : id ∈ ids) (hkind : d.kind id = .text value) :
    allBlank value.toList = true := by
  induction content generalizing scopes ids with
  | nil =>
    obtain rfl := List.forall₂_nil_right_iff.1 h
    cases hid
  | leaf head rest ih =>
    obtain ⟨first, ids, hfirst, hids, rfl⟩ := List.forall₂_cons_right_iff.1 h
    rcases List.mem_cons.1 hid with rfl | hid
    · rw [hfirst.kind_eq] at hkind
      cases head with
      | text raw =>
        obtain rfl : String.ofList raw = value := NodeKind.text.inj hkind
        rw [String.toList_ofList]
        exact hblank.1
      | _ => cases hkind
    · exact ih hids hblank.tail hid
  | element opening content rest _ ihRest =>
    obtain ⟨first, ids, hfirst, hids, rfl⟩ := List.forall₂_cons_right_iff.1 h
    rcases List.mem_cons.1 hid with rfl | hid
    · rw [hfirst.kind_eq] at hkind
      cases hkind
    · exact ihRest hids hblank hid

/-! ## Documents that have been read -/

/-- A handle is that of the document node, of a node below it, or of no node. -/
lemma eq_root_or_orderlyAt {content : Content} (h : content.Builds d) (id : NodeId) :
    id = root ∨ d.OrderlyAt id := by
  have hd : d.WellFormed := h.displays.wellFormed
  rcases eq_or_ne id root with hid | hid
  · exact .inl hid
  refine .inr ?_
  rcases Nat.lt_or_ge id d.size with hlt | hge
  · have hmem := h.mem_descendants_root hid hlt
    rw [hd.descendants_eq_flatMap] at hmem
    exact orderlyAt_of_content hd h.displays.shows_root.forest h.fits h.readable h.separated id hmem
  · exact .of_size_le hge

/-- Only elements and the document node have children. -/
lemma isElement_of_parse {text : String} (h : parse text = .ok d) {id child : NodeId}
    (hchild : child ∈ d.children id) : id = root ∨ d.isElement id = true := by
  obtain ⟨content, hbuilds, -⟩ := exists_content h
  exact (eq_root_or_orderlyAt hbuilds id).imp_right fun hid => hid.isElement_of_mem hchild

/-- How a document is arranged that has been read: its nodes are in document order, at the top there
are one element and no text that is not blank, only elements are above other nodes, there are no
empty texts and no texts side by side, and no element has two attributes of one name. -/
structure IsOrderly (d : Document) : Prop where
  kind_root : d.kind root = .document
  descendants_root : d.descendants root = List.range' 1 (d.size - 1)
  mem_children_iff : ∀ id child : NodeId, child ∈ d.children id ↔ d.parent child = some id
  one_element : (d.children root).countP d.isElement = 1
  blank : ∀ id ∈ d.children root, ∀ value, d.kind id = .text value →
    allBlank value.toList = true
  isElement_of_mem : ∀ id child : NodeId, child ∈ d.children id → id = root ∨ d.isElement id = true
  text_ne_empty : ∀ (id : NodeId) (value : String), d.kind id = .text value → value ≠ ""
  apart : ∀ id : NodeId, (d.children id).IsChain d.Apart
  nodup_names : ∀ (id : NodeId) (e : Element), d.kind id = .element e →
    (e.attributes.map fun a => a.name.toString).Nodup

theorem isOrderly_of_parse {text : String} (h : parse text = .ok d) : d.IsOrderly := by
  obtain ⟨content, hbuilds, -⟩ := exists_content h
  obtain ⟨hblank, hroots⟩ := hbuilds.blank_roots
  have hd : d.WellFormed := hbuilds.displays.wellFormed
  have hforest := hbuilds.displays.shows_root.forest
  have hkind : d.kind root = .document := hbuilds.displays.shows_root.kind_eq
  have hall := eq_root_or_orderlyAt hbuilds
  exact {
    kind_root := hkind
    descendants_root := hbuilds.descendants_root
    mem_children_iff := fun _ _ => ⟨hd.parent_of_mem, hd.mem_of_parent⟩
    one_element := (countP_isElement hforest).trans hroots
    blank := fun id hid value hvalue => blank_of_content hforest hblank hid hvalue
    isElement_of_mem := fun _ _ => isElement_of_parse h
    text_ne_empty := fun id value hvalue => by
      rcases hall id with rfl | hid
      · rw [hkind] at hvalue
        cases hvalue
      · exact hid.text_ne_empty hvalue
    apart := fun id => by
      rcases hall id with rfl | hid
      · exact isChain_apart hforest ((content.tells_trees []).isChain hbuilds.separated)
      · exact hid.apart
    nodup_names := fun id e hvalue => by
      rcases hall id with rfl | hid
      · rw [hkind] at hvalue
        cases hvalue
      · exact hid.nodup_names hvalue }

def mixedMarkup : String :=
  "<?xml version='1.0'?>\n<r><a k='1' b:k='2'>x<!---->y</a><![CDATA[]]></r>\n"

/-- Texts with a comment in between are not side by side, and attributes of one local name are told
apart by their prefixes. -/
theorem isOrderly_of_parse_mixed :
    ∃ d, parse mixedMarkup = .ok d ∧ d.descendants root = [1, 2, 3, 4, 5, 6, 7, 8, 9] ∧
      d.IsOrderly := by
  refine ⟨_, rfl, by decide +kernel, ?_⟩
  exact @isOrderly_of_parse _ mixedMarkup rfl

end Document

end WordFields
