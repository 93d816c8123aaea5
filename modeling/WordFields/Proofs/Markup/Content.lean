import WordFields.Proofs.Markup.Attribute
import WordFields.Proofs.Markup.Transcript
import WordFields.Proofs.Tree.Shape

/-!
# The content of markup

`Content` is what markup says when its spelling is forgotten: elements around contents, and nodes
that nothing is inside of.  It has two readings, the trees that a document gets from it and the
events that spell it, and a document that displays the trees is written by spelling the events
(`flatMap_nodeMarkup`).

Two questions about the events of a content are questions about the nodes of the document as well:
whether quotes pair up in every tag, and whether an event looks like another one.

Namespaces are not written.  `Content.Tells` says of a content that it has some trees but for the
namespaces in them, which is enough for writing.
-/

namespace WordFields

namespace Markup

/-- A node of markup that nothing is inside of. -/
inductive Leaf where
  | text (value : List Char)
  | cdata (value : List Char)
  | comment (value : List Char)
  | declaration (value : List Char)
  | processing (value : List Char)
  | doctype (value : List Char)

namespace Leaf

def kind : Leaf → NodeKind
  | text value => .text (String.ofList value)
  | cdata value => .cdata (String.ofList value)
  | comment value => .comment (String.ofList value)
  | declaration value => .declaration (String.ofList value)
  | processing value => .processing (String.ofList value)
  | doctype value => .doctype (String.ofList value)

/-- The event in the spelling that is used for writing. -/
def event : Leaf → Event
  | text value => .text (escapeText value)
  | cdata value => .cdata value
  | comment value => .comment value
  | declaration value => .declaration value
  | processing value => .processing value
  | doctype value => .doctype value

/-- Whether a node is built as it is.  The content of a document type is trimmed. -/
def Fits : Leaf → Prop
  | doctype value => Text.trim value = value
  | _ => True

end Leaf

/-- The events of an element around those of its content. -/
def Opening.events (opening : Opening) (inner : List Event) : List Event :=
  if inner.isEmpty then [.selfClosing opening.tag]
  else .opening opening.tag :: (inner ++ [.closing opening.name])

namespace Opening

variable {opening : Opening} {inner rest : List Event}

lemma forall_events_iff {q : Event → Prop} :
    (∀ event ∈ opening.events inner, q event) ↔
      if inner.isEmpty then q (.selfClosing opening.tag)
      else q (.opening opening.tag) ∧ (∀ event ∈ inner, q event) ∧ q (.closing opening.name) := by
  rw [events]
  split
  · exact List.forall_mem_singleton
  · rw [List.forall_mem_cons, List.forall_mem_append, List.forall_mem_singleton]

lemma textFirst_events : textFirst (opening.events inner ++ rest) = false := by
  rw [events]
  split <;> rfl

lemma separated_events_iff :
    Separated (opening.events inner ++ rest) ↔ Separated inner ∧ Separated rest := by
  have htag : ∀ {event : Event}, event.isText = false → ∀ {events : List Event},
      (Separated (event :: events) ↔ Separated events) := by
    intro event hevent events
    rw [Separated, hevent]
    simp
  rw [events]
  split
  next hempty =>
    rw [List.isEmpty_iff.1 hempty, List.singleton_append, htag rfl]
    exact (and_iff_right trivial).symm
  next =>
    rw [List.cons_append, List.append_assoc, List.singleton_append, htag rfl]
    constructor
    · intro hall
      obtain ⟨hinner, hclosing⟩ := separated_of_append hall
      exact ⟨hinner, (htag rfl).1 hclosing⟩
    · rintro ⟨hinner, hrest⟩
      exact hinner.append ((htag rfl).2 hrest) rfl

end Opening

/-- A sequence of elements and other nodes. -/
inductive Content where
  | nil
  | leaf (leaf : Leaf) (rest : Content)
  | element (opening : Opening) (content rest : Content)

namespace Content

/-- The trees of a content under the bindings of the elements around it. -/
def trees : List (List Binding) → Content → List Tree
  | _, nil => []
  | scopes, leaf head rest => .node head.kind [] :: rest.trees scopes
  | scopes, element opening content rest =>
    .node (.element (opening.element scopes)) (content.trees (opening.bindings :: scopes)) ::
      rest.trees scopes

/-- The events of a content in the spelling that is used for writing. -/
def events : Content → List Event
  | nil => []
  | leaf head rest => head.event :: rest.events
  | element opening content rest => opening.events content.events ++ rest.events

/-- Whether a content is built as it is inside of an element. -/
def Fits : Content → Prop
  | nil => True
  | leaf head rest => head.Fits ∧ rest.Fits
  | element opening content rest => opening.Keyed ∧ content.Fits ∧ rest.Fits

/-- A content tells trees whatever the namespaces in them are. -/
inductive Tells : Content → List Tree → Prop
  | nil : Tells nil []
  | leaf (head : Leaf) {rest : Content} {trees : List Tree} (tail : Tells rest trees) :
    Tells (leaf head rest) (.node head.kind [] :: trees)
  | element (e : Element) {content rest : Content} {below trees : List Tree}
      (inner : Tells content below) (tail : Tells rest trees) :
    Tells (element (.ofElement e) content rest) (.node (.element e) below :: trees)

lemma tells_trees (content : Content) (scopes : List (List Binding)) :
    content.Tells (content.trees scopes) := by
  induction content generalizing scopes with
  | nil => exact .nil
  | leaf head rest ih => exact .leaf head (ih scopes)
  | element opening content rest ihContent ihRest =>
    have htells := Tells.element (opening.element scopes)
      (ihContent (opening.bindings :: scopes)) (ihRest scopes)
    rwa [Opening.ofElement_element] at htells

lemma events_eq_nil_iff {content : Content} : content.events = [] ↔ content = nil := by
  cases content with
  | nil => simp [events]
  | leaf head rest => simp [events]
  | element opening content rest =>
    have hne : opening.events content.events ≠ [] := by
      rw [Opening.events]
      split <;> exact List.cons_ne_nil _ _
    simp [events, hne]

lemma Tells.isEmpty_events {content : Content} {trees : List Tree} (h : content.Tells trees) :
    content.events.isEmpty = trees.isEmpty := by
  cases h with
  | nil => rfl
  | leaf head tail => rfl
  | element e inner tail =>
    rw [events, Opening.events]
    split <;> rfl

end Content

end Markup

namespace NodeKind

/-- Whether quotes pair up in the start tag of an element. -/
def Sealed : NodeKind → Prop
  | element e => Markup.Closes (Document.tagMarkup e)
  | _ => True

instance : (kind : NodeKind) → Decidable kind.Sealed
  | element e => inferInstanceAs (Decidable (Markup.Closes (Document.tagMarkup e)))
  | document | text _ | cdata _ | comment _ | declaration _ | processing _ | doctype _ =>
    inferInstanceAs (Decidable True)

/-- Whether the markup of a node cannot be taken for something else: the tag of an element without
children is not empty, that of an element with children does not end in a slash, and a document type
has a name. -/
def Proper (childless : Bool) : NodeKind → Prop
  | element e =>
    if childless then Document.tagMarkup e ≠ [] else (Document.tagMarkup e).getLast? ≠ some '/'
  | doctype value => value ≠ ""
  | _ => True

instance (childless : Bool) : (kind : NodeKind) → Decidable (kind.Proper childless)
  | element e => inferInstanceAs (Decidable (if childless then Document.tagMarkup e ≠ []
      else (Document.tagMarkup e).getLast? ≠ some '/'))
  | doctype value => inferInstanceAs (Decidable (value ≠ ""))
  | document | text _ | cdata _ | comment _ | declaration _ | processing _ =>
    inferInstanceAs (Decidable True)

end NodeKind

namespace Document

open Markup

variable {d : Document}

/-! ## Writing -/

lemma Shows.descendants_nil {id : NodeId} {kind : NodeKind} (hd : d.WellFormed)
    (h : d.Shows id (.node kind [])) : d.descendants id = [] := by
  rw [hd.descendants_eq_flatMap, h.children_nil]
  rfl

/-- Something is below a node exactly if something is inside of its element. -/
lemma Shows.isEmpty_children {id : NodeId} {kind : NodeKind} {trees : List Tree}
    {content : Content} (h : d.Shows id (.node kind trees)) (htells : content.Tells trees) :
    (d.children id).isEmpty = content.events.isEmpty := by
  have hlength := h.forest.length_eq
  rw [htells.isEmpty_events, Bool.eq_iff_iff, List.isEmpty_iff_length_eq_zero,
    List.isEmpty_iff_length_eq_zero, hlength]

lemma nodeMarkup_leaf {leaf : Leaf} {id : NodeId} (h : d.Shows id (.node leaf.kind []))
    (depth : Nat) : d.nodeMarkup (depth + 1) id = leaf.event.markup := by
  rw [nodeMarkup, h.kind_eq]
  cases leaf <;> simp [Leaf.kind, Leaf.event, Event.markup]

lemma elementMarkup_eq (e : Element) (inner : List Event) :
    elementMarkup e inner.isEmpty (inner.flatMap Event.markup) =
      ((Opening.ofElement e).events inner).flatMap Event.markup := by
  have hname : (Opening.ofElement e).name = e.name.toChars := rfl
  rw [elementMarkup, Opening.events, Opening.tagMarkup_eq, ← hname]
  split <;> simp [Event.markup]

/-- Nodes that show the trees of a content are written by spelling its events, if the bound on the
depth of the writing is not reached. -/
lemma flatMap_nodeMarkup {content : Content} {trees : List Tree} (htells : content.Tells trees)
    {ids : List NodeId} (h : List.Forall₂ d.Shows ids trees) {depth : Nat}
    (hdepth : forestHeight trees ≤ depth) :
    ids.flatMap (d.nodeMarkup depth) = content.events.flatMap Event.markup := by
  induction htells generalizing ids depth with
  | nil =>
    obtain rfl := List.forall₂_nil_right_iff.1 h
    rfl
  | leaf head tail ih =>
    obtain ⟨id, ids, hid, hids, rfl⟩ := List.forall₂_cons_right_iff.1 h
    obtain ⟨hhead, hrest⟩ := max_le_iff.1 hdepth
    obtain ⟨depth, rfl⟩ := Tree.exists_succ_of_height_le hhead
    rw [List.flatMap_cons, nodeMarkup_leaf hid, Content.events, List.flatMap_cons, ih hids hrest]
  | element e inner tail ihInner ihTail =>
    obtain ⟨id, ids, hid, hids, rfl⟩ := List.forall₂_cons_right_iff.1 h
    obtain ⟨hhead, hrest⟩ := max_le_iff.1 hdepth
    obtain ⟨depth, rfl⟩ := Tree.exists_succ_of_height_le hhead
    rw [Tree.height] at hhead
    rw [List.flatMap_cons, nodeMarkup, hid.kind_eq, ihTail hids hrest, Content.events,
      List.flatMap_append, ← elementMarkup_eq e, ← ihInner hid.forest (Nat.le_of_succ_le_succ hhead),
      hid.isEmpty_children inner]

/-- A document is written by spelling the events of what it tells. -/
theorem Shows.toChars_eq {content : Content} {trees : List Tree}
    (h : d.Shows root (.node .document trees)) (htells : content.Tells trees) :
    d.toChars = content.events.flatMap Event.markup := by
  have hheight := h.height_le List.nodup_nil (fun x hx => absurd hx List.not_mem_nil)
    fun x hx => absurd hx List.not_mem_nil
  exact flatMap_nodeMarkup htells h.forest (Nat.le_of_succ_le_succ hheight)

lemma toChars_eq {content : Content} (h : d.Displays (content.trees [])) :
    d.toChars = content.events.flatMap Event.markup :=
  h.shows_root.toChars_eq (content.tells_trees [])

/-! ## Questions about all events -/

section

variable {p : NodeKind → Bool → Prop} {q : Event → Prop}

/-- What is asked about the kind of each node, and whether the node is childless, can be asked
about the events if it comes to the same for each kind. -/
lemma forall_kind_iff (hd : d.WellFormed) (hleaf : ∀ leaf : Leaf, p leaf.kind true ↔ q leaf.event)
    (hempty : ∀ scopes (opening : Opening),
      p (.element (opening.element scopes)) true ↔ q (.selfClosing opening.tag))
    (hfull : ∀ scopes (opening : Opening),
      p (.element (opening.element scopes)) false ↔ q (.opening opening.tag))
    (hclosing : ∀ name, q (.closing name)) {content : Content} {scopes : List (List Binding)}
    {ids : List NodeId} (h : List.Forall₂ d.Shows ids (content.trees scopes)) :
    (∀ id ∈ ids.flatMap fun id => id :: d.descendants id, p (d.kind id) (d.children id).isEmpty) ↔
      ∀ event ∈ content.events, q event := by
  induction content generalizing scopes ids with
  | nil =>
    obtain rfl := List.forall₂_nil_right_iff.1 h
    simp [Content.events]
  | leaf head rest ih =>
    obtain ⟨id, ids, hid, hids, rfl⟩ := List.forall₂_cons_right_iff.1 h
    have hchildren : (d.children id).isEmpty = true := by rw [hid.children_nil]; rfl
    rw [List.flatMap_cons, List.forall_mem_append, ih hids, List.forall_mem_cons,
      hid.descendants_nil hd, hid.kind_eq, hchildren, hleaf, Content.events, List.forall_mem_cons]
    simp
  | element opening content rest ihContent ihRest =>
    obtain ⟨id, ids, hid, hids, rfl⟩ := List.forall₂_cons_right_iff.1 h
    rw [List.flatMap_cons, List.forall_mem_append, ihRest hids, List.forall_mem_cons,
      hd.descendants_eq_flatMap, ihContent hid.forest, hid.kind_eq,
      hid.isEmpty_children (content.tells_trees _),
      Content.events, List.forall_mem_append, Opening.forall_events_iff]
    split
    next hnil =>
      rw [List.isEmpty_iff.1 hnil, List.isEmpty_nil, hempty]
      simp
    next hne =>
      rw [Bool.eq_false_iff.2 hne, hfull]
      simp [hclosing]

end

/-- Whether the start tag of a node, if it is an element, ends where it should. -/
def SealedAt (d : Document) (id : NodeId) : Prop :=
  (d.kind id).Sealed

instance (d : Document) (id : NodeId) : Decidable (d.SealedAt id) :=
  inferInstanceAs (Decidable (d.kind id).Sealed)

/-- Whether the markup of a node cannot be taken for something else. -/
def ProperAt (d : Document) (id : NodeId) : Prop :=
  (d.kind id).Proper (d.children id).isEmpty

instance (d : Document) (id : NodeId) : Decidable (d.ProperAt id) :=
  inferInstanceAs (Decidable ((d.kind id).Proper (d.children id).isEmpty))

section

variable {content : Content}

lemma forall_sealedAt_iff (h : d.Displays (content.trees [])) :
    (∀ id ∈ d.descendants root, d.SealedAt id) ↔ ∀ event ∈ content.events, event.Sealed := by
  rw [h.wellFormed.descendants_eq_flatMap]
  refine forall_kind_iff (p := fun kind _ => kind.Sealed) h.wellFormed (fun leaf => ?_)
    (fun scopes opening => ?_) (fun scopes opening => ?_) (fun _ => Event.sealed_of_tag? rfl)
    h.shows_root.forest
  · cases leaf <;> simp [Leaf.kind, Leaf.event, NodeKind.Sealed, Event.Sealed, Event.tag?]
  · simp [NodeKind.Sealed, Event.Sealed, Event.tag?, Opening.tagMarkup_element]
  · simp [NodeKind.Sealed, Event.Sealed, Event.tag?, Opening.tagMarkup_element]

lemma forall_properAt_iff (h : d.Displays (content.trees [])) :
    (∀ id ∈ d.descendants root, d.ProperAt id) ↔ ∀ event ∈ content.events, event.Proper := by
  rw [h.wellFormed.descendants_eq_flatMap]
  refine forall_kind_iff (p := fun kind childless => kind.Proper childless) h.wellFormed
    (fun leaf => ?_) (fun scopes opening => ?_) (fun scopes opening => ?_) (fun _ => trivial)
    h.shows_root.forest
  · cases leaf <;> simp [Leaf.kind, Leaf.event, Event.Proper, NodeKind.Proper]
  · simp [Event.Proper, NodeKind.Proper, Opening.tagMarkup_element]
  · simp [Event.Proper, NodeKind.Proper, Opening.tagMarkup_element]

end

end Document

end WordFields
