import WordFields.Proofs.Markup.Building
import WordFields.Proofs.Tree.Ascent

/-!
# Declarations of namespaces hold where they stand

The builder looks a prefix up in the bindings of the open elements, of which it forgets those of an
element that is closed.  In the tree that it makes no such list is left, but the attributes that
declare the bindings are.  `Document.namespaceAt?` reads a namespace off them: what a prefix stands
for at a node is said by the nearest element, at the node or above it, that declares the prefix.
Every element of a document that has been read, and every attribute with a prefix, is in the
namespace that its prefix stands for at the element (`Document.scopedAt_of_parse`).
-/

namespace WordFields

open Text Markup

/-- The name of the attribute that declares a prefix, or the default namespace. -/
def declarationName : Option String → String
  | some nsPrefix => "xmlns:" ++ nsPrefix
  | none => "xmlns"

namespace Document

/-- The value of an attribute at the nearest node, the node itself or above it, that has the
attribute. -/
def inherited? (d : Document) (name : String) (id : NodeId) : Option String :=
  (d.nearest? (fun n => (d.attribute? n name).isSome) d.size id).bind fun n => d.attribute? n name

/-- The namespace that a prefix, or the lack of one, stands for at a node.  The prefix `xml` needs
no declaration, and an empty namespace is none. -/
def namespaceAt? (d : Document) (id : NodeId) (nsPrefix : Option String) : Option String :=
  if nsPrefix = some "xml" then some xmlNamespace
  else (d.inherited? (declarationName nsPrefix) id).filter fun name => !name.isEmpty

variable {d : Document}

lemma WellFormed.inherited?_eq (h : d.WellFormed) (name : String) (id : NodeId) :
    d.inherited? name id = (d.attribute? id name).or ((d.parent id).bind (d.inherited? name)) := by
  rw [inherited?, h.nearest?_eq]
  cases hvalue : d.attribute? id name with
  | some value => simp [hvalue]
  | none =>
    simp only [Option.isSome_none, Bool.false_eq_true, if_false, Option.none_or]
    cases d.parent id <;> rfl

end Document

namespace Markup

/-! ## Bindings and the attributes that declare them -/

lemma toList_declarationName (nsPrefix : Option String) :
    (declarationName nsPrefix).toList =
      match nsPrefix with
      | some name => "xmlns:".toList ++ name.toList
      | none => "xmlns".toList := by
  cases nsPrefix with
  | some name => exact String.toList_append
  | none => rfl

lemma Binding.ofAttribute?_eq_some_iff {key : List Char} {value : String} {binding : Binding} :
    Binding.ofAttribute? key value = some binding ↔
      key = (declarationName binding.nsPrefix).toList ∧ value = binding.namespaceName := by
  obtain ⟨nsPrefix, namespaceName⟩ := binding
  rw [toList_declarationName, ofAttribute?]
  split
  next hkey =>
    subst hkey
    cases nsPrefix <;> simp
  next hkey =>
    rw [Option.map_eq_some_iff]
    cases nsPrefix with
    | none =>
      refine iff_of_false ?_ fun hboth => hkey hboth.1
      rintro ⟨rest, -, heq⟩
      cases heq
    | some name =>
      constructor
      · rintro ⟨rest, hrest, heq⟩
        cases heq
        exact ⟨by rw [after?_eq_some_iff.1 hrest]; simp, rfl⟩
      · rintro ⟨hkey, rfl⟩
        exact ⟨name.toList, after?_eq_some_iff.2 hkey, by rw [String.ofList_toList]⟩

/-- The first binding of a prefix is the first attribute that declares it. -/
lemma find?_bindings (attributes : List (List Char × String)) (nsPrefix : Option String) :
    ((attributes.filterMap fun a => Binding.ofAttribute? a.1 a.2).find?
        fun b => b.nsPrefix == nsPrefix).map Binding.namespaceName =
      (attributes.find? fun a => a.1 == (declarationName nsPrefix).toList).map Prod.snd := by
  induction attributes with
  | nil => rfl
  | cons a attributes ih =>
    rw [List.filterMap_cons]
    by_cases hkey : a.1 = (declarationName nsPrefix).toList
    · have hbinding : Binding.ofAttribute? a.1 a.2 = some ⟨nsPrefix, a.2⟩ :=
        Binding.ofAttribute?_eq_some_iff.2 ⟨hkey, rfl⟩
      rw [hbinding, List.find?_cons_of_pos (by simp), List.find?_cons_of_pos (by simp [hkey])]
      rfl
    · rw [List.find?_cons_of_neg (by simpa using hkey), ← ih]
      split
      next => rfl
      next binding hbinding =>
        have hother : binding.nsPrefix ≠ nsPrefix := by
          rintro rfl
          exact hkey (Binding.ofAttribute?_eq_some_iff.1 hbinding).1
        rw [List.find?_cons_of_neg (by simpa using hother)]

/-- What an element says about a prefix is said by its attributes. -/
lemma find?_bindings_eq_attribute? (opening : Opening) (scopes : List (List Binding))
    (nsPrefix : Option String) :
    (opening.bindings.find? fun b => b.nsPrefix == nsPrefix).map Binding.namespaceName =
      (opening.element scopes).attribute? (declarationName nsPrefix) := by
  have hname : ∀ key, ((QualifiedName.ofChars key).toString == declarationName nsPrefix) =
      (key == (declarationName nsPrefix).toList) := by
    intro key
    rw [QualifiedName.toString, QualifiedName.toChars_ofChars, Bool.eq_iff_iff, beq_iff_eq,
      beq_iff_eq, ← String.toList_inj, String.toList_ofList]
  rw [Element.attribute?, Opening.element, Builder.elementOf, List.find?_map, Option.map_map]
  simp only [Function.comp_def, hname]
  exact find?_bindings opening.attributes nsPrefix

end Markup

namespace Document

variable {d : Document} {scopes : List (List Binding)}

/-! ## Scopes and the elements that they belong to -/

/-- Bindings that say of each prefix what the attributes of a node and of those above it say. -/
def InScope (d : Document) (scopes : List (List Binding)) (id : NodeId) : Prop :=
  ∀ nsPrefix : Option String,
    (scopes.flatten.find? fun b => b.nsPrefix == nsPrefix).map Binding.namespaceName =
      d.inherited? (declarationName nsPrefix) id

lemma InScope.resolve?_eq {id : NodeId} (h : d.InScope scopes id) (nsPrefix : Option String) :
    Builder.resolve? scopes nsPrefix = d.namespaceAt? id nsPrefix := by
  rw [Builder.resolve?, namespaceAt?, h nsPrefix]

/-- Nothing is declared at the document node. -/
lemma inScope_root (hd : d.WellFormed) (hkind : d.kind root = .document)
    (hparent : d.parent root = none) : d.InScope [] root := by
  intro nsPrefix
  rw [hd.inherited?_eq, hparent, attribute?, element?, hkind]
  rfl

/-- The bindings of an element come before those of the elements around it. -/
lemma InScope.element {top id : NodeId} {opening : Opening} (h : d.InScope scopes top)
    (hd : d.WellFormed) (hparent : d.parent id = some top)
    (hkind : d.kind id = .element (opening.element scopes)) :
    d.InScope (opening.bindings :: scopes) id := by
  intro nsPrefix
  have hattribute : d.attribute? id (declarationName nsPrefix) =
      (opening.element scopes).attribute? (declarationName nsPrefix) := by
    rw [attribute?, element?, hkind]
    rfl
  rw [hd.inherited?_eq, hattribute, hparent, Option.bind_some, ← h nsPrefix,
    ← find?_bindings_eq_attribute?, List.flatten_cons, List.find?_append, Option.map_or]

/-- Whether an element at a node is in the namespaces that its prefixes stand for there. -/
structure ScopedAt (d : Document) (id : NodeId) (e : Element) : Prop where
  element : e.namespaceName = d.namespaceAt? id e.name.nsPrefix
  attributes : ∀ a ∈ e.attributes,
    a.namespaceName = if a.name.nsPrefix.isSome then d.namespaceAt? id a.name.nsPrefix else none

lemma InScope.scopedAt {id : NodeId} {opening : Opening}
    (h : d.InScope (opening.bindings :: scopes) id) : d.ScopedAt id (opening.element scopes) where
  element := h.resolve?_eq _
  attributes a ha := by
    obtain ⟨⟨key, value⟩, -, rfl⟩ := List.mem_map.1 ha
    simp only [h.resolve?_eq]

/-- The elements of a content are scoped, if the bindings that it is built with are those of the
nodes above it. -/
lemma scopedAt_of_content (hd : d.WellFormed) {content : Content} {ids : List NodeId}
    {top : NodeId} (h : List.Forall₂ d.Shows ids (content.trees scopes))
    (hscopes : d.InScope scopes top) (hparent : ∀ id ∈ ids, d.parent id = some top) :
    ∀ id ∈ ids.flatMap fun id => id :: d.descendants id, ∀ e, d.kind id = .element e →
      d.ScopedAt id e := by
  induction content generalizing scopes ids top with
  | nil =>
    obtain rfl := List.forall₂_nil_right_iff.1 h
    exact fun id hid => absurd hid List.not_mem_nil
  | leaf head rest ih =>
    obtain ⟨id, ids, hid, hids, rfl⟩ := List.forall₂_cons_right_iff.1 h
    obtain ⟨-, hparents⟩ := List.forall_mem_cons.1 hparent
    rw [List.flatMap_cons, List.forall_mem_append, List.forall_mem_cons, hid.descendants_nil hd]
    refine ⟨⟨fun e hkind => ?_, fun _ hmem => absurd hmem List.not_mem_nil⟩,
      ih hids hscopes hparents⟩
    rw [hid.kind_eq] at hkind
    cases head <;> cases hkind
  | element opening content rest ihContent ihRest =>
    obtain ⟨id, ids, hid, hids, rfl⟩ := List.forall₂_cons_right_iff.1 h
    obtain ⟨habove, hparents⟩ := List.forall_mem_cons.1 hparent
    have hinner := hscopes.element hd habove hid.kind_eq
    rw [List.flatMap_cons, List.forall_mem_append, List.forall_mem_cons, hd.descendants_eq_flatMap]
    refine ⟨⟨fun e hkind => ?_, ihContent hid.forest hinner fun child => hd.parent_of_mem⟩,
      ihRest hids hscopes hparents⟩
    obtain rfl : opening.element scopes = e := NodeKind.element.inj (hid.kind_eq.symm.trans hkind)
    exact hinner.scopedAt

/-! ## Documents that have been read -/

/-- Every element that has been read is in the namespace that its prefix stands for where the
element is, and so is every attribute with a prefix; attributes without one are in no namespace. -/
theorem scopedAt_of_parse {text : String} (h : parse text = .ok d) {id : NodeId} {e : Element}
    (hkind : d.kind id = .element e) : d.ScopedAt id e := by
  obtain ⟨content, hbuilds, -⟩ := exists_content h
  have hd : d.WellFormed := hbuilds.displays.wellFormed
  have hshows := hbuilds.displays.shows_root
  have hscopes := inScope_root hd hshows.kind_eq hbuilds.parent_root
  have hall := scopedAt_of_content hd hshows.forest hscopes fun child => hd.parent_of_mem
  rw [← hd.descendants_eq_flatMap] at hall
  have hid : id ≠ root := by
    rintro rfl
    rw [hshows.kind_eq] at hkind
    cases hkind
  have hlt : id < d.size := by
    by_contra hge
    rw [kind, node_of_size_le (Nat.le_of_not_lt hge)] at hkind
    cases hkind
  exact hall id (hbuilds.mem_descendants_root hid hlt) e hkind

def scopedMarkup : String :=
  "<a:r xmlns:a='u' xmlns='v'><s xmlns=''/><b xmlns:a='w'>" ++
    "<c xmlns='' a:k='1' k='2' xml:l='3'/></b></a:r>"

/-- A declaration holds inside of its element only, and an empty one takes the default namespace
away. -/
theorem scopedAt_of_parse_nested :
    ∃ d e, parse scopedMarkup = .ok d ∧ d.kind 4 = .element e ∧ e.namespaceName = none ∧
      e.attributes.map Attribute.namespaceName = [none, some "w", none, some xmlNamespace] ∧
        d.ScopedAt 4 e := by
  refine ⟨_, _, rfl, rfl, rfl, rfl, ?_⟩
  exact @scopedAt_of_parse _ scopedMarkup rfl _ _ rfl

end Document

end WordFields
