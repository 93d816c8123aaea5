import WordFields.Proofs.Field.Repetition
import WordFields.Proofs.Markup.Acceptance

/-!
# Substitutions and markup

`Content.Filled` says what substitutions make of the content of a document that has been read: tags
with a path recorded in them (`Opening.record`) around placeholders, and comments that cannot end
too early (`endsAt_mergeComment`).  If there were a text for the one content there is a draft of the
other one (`Filled.drafts`), and a document shows the one after the substitutions if it showed the
other one before (`Substituted.exists_filled`).

It is a draft since an end tag may be new: a text element that had none gets one with the
placeholder, and in its name quotes need not pair up.
-/

namespace WordFields

namespace Markup

open Text Builder

/-! ## Recording a path in a tag -/

/-- The key that paths are recorded under. -/
def mergeKey : List Char :=
  mergeAttribute.toList

/-- Attributes of a tag with a path recorded. -/
def recordPath (path : String) : List (List Char × String) → List (List Char × String)
  | [] => [(mergeKey, path)]
  | (key, value) :: rest =>
    if key = mergeKey then (key, path) :: rest else (key, value) :: recordPath path rest

lemma ofChars_eq_mergeName_iff (key : List Char) :
    QualifiedName.ofChars key = Element.mergeName ↔ key = mergeKey := by
  constructor
  · intro h
    rw [← QualifiedName.toChars_ofChars key, h]
    rfl
  · rintro rfl
    exact Element.ofString_mergeAttribute

lemma recordPath_ne_nil (path : String) (attributes : List (List Char × String)) :
    recordPath path attributes ≠ [] := by
  unfold recordPath
  split
  · exact List.cons_ne_nil _ _
  · split <;> exact List.cons_ne_nil _ _

lemma keys_recordPath (path : String) (attributes : List (List Char × String)) :
    (recordPath path attributes).map Prod.fst =
      if mergeKey ∈ attributes.map Prod.fst then attributes.map Prod.fst
      else attributes.map Prod.fst ++ [mergeKey] := by
  induction attributes with
  | nil => rfl
  | cons a attributes ih =>
    obtain ⟨key, value⟩ := a
    by_cases hkey : key = mergeKey
    · simp [recordPath, hkey]
    · have hne : mergeKey ≠ key := Ne.symm hkey
      simp only [recordPath, if_neg hkey, List.map_cons, ih, List.mem_cons, hne, false_or]
      split <;> rfl

/-- No binding is declared under the key. -/
lemma ofAttribute?_mergeKey (value : String) : Binding.ofAttribute? mergeKey value = none := by
  have hafter : after? "xmlns:".toList mergeKey = none := by decide
  rw [Binding.ofAttribute?, if_neg (by decide), hafter]
  rfl

lemma filterMap_recordPath (path : String) (attributes : List (List Char × String)) :
    (recordPath path attributes).filterMap (fun (key, value) => Binding.ofAttribute? key value) =
      attributes.filterMap fun (key, value) => Binding.ofAttribute? key value := by
  induction attributes with
  | nil => simp [recordPath, ofAttribute?_mergeKey]
  | cons a attributes ih =>
    obtain ⟨key, value⟩ := a
    by_cases hkey : key = mergeKey
    · simp [recordPath, hkey, ofAttribute?_mergeKey]
    · rw [recordPath, if_neg hkey, List.filterMap_cons, List.filterMap_cons, ih]

/-- Recording a path in a tag records it in the attributes that the tag stands for. -/
lemma map_recordPath {nameSpace : QualifiedName → Option String}
    (hnone : nameSpace Element.mergeName = none) (path : String)
    (attributes : List (List Char × String)) :
    let read := fun a : List Char × String =>
      (⟨QualifiedName.ofChars a.1, nameSpace (QualifiedName.ofChars a.1), a.2⟩ : Attribute)
    (recordPath path attributes).map read =
      if (attributes.map read).any fun a => a.name == Element.mergeName then
        Element.replaceValue Element.mergeName path (attributes.map read)
      else attributes.map read ++ [⟨Element.mergeName, none, path⟩] := by
  intro read
  have hmerge : ∀ value, read (mergeKey, value) = ⟨Element.mergeName, none, value⟩ := by
    intro value
    simp only [read, (ofChars_eq_mergeName_iff mergeKey).2 rfl, hnone]
  induction attributes with
  | nil => simp [recordPath, hmerge]
  | cons a attributes ih =>
    obtain ⟨key, value⟩ := a
    by_cases hkey : key = mergeKey
    · subst hkey
      simp [recordPath, hmerge, Element.replaceValue]
    · have hhead : (read (key, value)).name ≠ Element.mergeName :=
        mt (ofChars_eq_mergeName_iff key).1 hkey
      rw [recordPath, if_neg hkey, List.map_cons, ih, List.map_cons, List.any_cons,
        Element.replaceValue, if_neg hhead, beq_false_of_ne hhead, Bool.false_or]
      split <;> rfl

namespace Opening

/-- The tag with a path recorded. -/
def record (opening : Opening) (path : String) : Opening :=
  ⟨opening.name, recordPath path opening.attributes⟩

lemma bindings_record (opening : Opening) (path : String) :
    (opening.record path).bindings = opening.bindings :=
  filterMap_recordPath path opening.attributes

lemma element_record (opening : Opening) (path : String) (scopes : List (List Binding)) :
    (opening.record path).element scopes =
      (opening.element scopes).setAttribute mergeAttribute path := by
  have hset : ∀ e : Element, e.setAttribute mergeAttribute path =
      { e with
        attributes := if e.attributes.any fun a => a.name == Element.mergeName then
            Element.replaceValue Element.mergeName path e.attributes
          else e.attributes ++ [⟨Element.mergeName, none, path⟩] } := by
    intro e
    rw [Element.setAttribute, Element.ofString_mergeAttribute]
    split <;> rfl
  have hmap := @map_recordPath (fun name => if name.nsPrefix.isSome then
    resolve? (opening.bindings :: scopes) name.nsPrefix else none) rfl path opening.attributes
  rw [hset, element, bindings_record]
  exact congrArg (fun attributes => (⟨_, _, attributes⟩ : Element)) hmap

lemma Keyed.record {opening : Opening} (h : opening.Keyed) (path : String) :
    (opening.record path).Keyed := by
  have hkeys := keys_recordPath path opening.attributes
  have hkey : IsKey mergeKey := ⟨'d', _, rfl, by decide, List.all_eq_true.1 (by decide)⟩
  have hall : ∀ key ∈ opening.attributes.map Prod.fst, IsKey key := by
    intro key hmem
    obtain ⟨a, ha, rfl⟩ := List.mem_map.1 hmem
    exact h.isKey a ha
  constructor
  · intro a ha
    have hmem : a.1 ∈ (recordPath path opening.attributes).map Prod.fst := List.mem_map_of_mem ha
    rw [hkeys] at hmem
    split at hmem
    · exact hall a.1 hmem
    · rcases List.mem_append.1 hmem with hmem | hmem
      · exact hall a.1 hmem
      · rwa [List.mem_singleton.1 hmem]
  · rw [Opening.record, hkeys]
    split
    next => exact h.nodup
    next hnot =>
      refine h.nodup.append (List.nodup_singleton _) fun key hmem hsingle => ?_
      exact hnot (List.mem_singleton.1 hsingle ▸ hmem)

lemma isTag_record {opening : Opening} (h : IsTag opening.tag) (path : String) :
    IsTag (opening.record path).tag where
  not_space := h.not_space
  begins := h.begins
  begins_rest := begins_rest _
  fits := h.fits
  closes hspaces := by
    obtain ⟨a, attributes, hcons⟩ :=
      List.exists_cons_of_ne_nil (recordPath_ne_nil path opening.attributes)
    have hmem : '=' ∈ (opening.record path).tag.rest := by
      simp [record, tag, hcons, spellAttribute]
    exact absurd (hspaces _ hmem) (by decide)

/-- Such a tag ends with the quote of a value. -/
lemma proper_record (opening : Opening) (path : String) :
    (Event.opening (opening.record path).tag).Proper := by
  rcases List.eq_nil_or_concat (recordPath path opening.attributes) with hnil | ⟨front, a, hfront⟩
  · exact absurd hnil (recordPath_ne_nil path opening.attributes)
  · obtain ⟨text, htext⟩ : ∃ text, spellAttribute a = text ++ ['"'] :=
      ⟨' ' :: (a.1 ++ '=' :: '"' :: escapeValue a.2.toList), by simp [spellAttribute]⟩
    simp [Event.Proper, Tag.content, record, tag, hfront, htext]

end Opening

end Markup

/-! ## The comment for a path -/

lemma head?_spaceHyphens (c : Char) (text : List Char) :
    (spaceHyphens (c :: text)).head? = some c := by
  cases text with
  | nil =>
    rw [spaceHyphens]
    split
    next hc => rw [hc]; rfl
    next => rfl
  | cons d text =>
    rw [spaceHyphens]
    split
    next hboth => rw [hboth.1]; rfl
    next => rfl

/-- Two hyphens are not in a row. -/
lemma not_occurs_spaceHyphens (text : List Char) : ¬ ['-', '-'] <:+: spaceHyphens text := by
  induction text using spaceHyphens.induct with
  | case1 => simp [spaceHyphens]
  | case2 => simp [spaceHyphens, List.infix_cons_iff]
  | case3 c hc => simp [spaceHyphens, hc, List.infix_cons_iff]
  | case4 c d text hboth ih =>
    rw [spaceHyphens, if_pos hboth]
    simp [List.infix_cons_iff, ih]
  | case5 c d text hnot ih =>
    rw [spaceHyphens, if_neg hnot, List.infix_cons_iff]
    rintro (hstart | hoccurs)
    · obtain ⟨hc, rest, hrest⟩ := List.cons_prefix_cons.1 hstart
      have hd := head?_spaceHyphens d text
      rw [← hrest] at hd
      exact hnot ⟨hc.symm, (Option.some.inj hd).symm⟩
    · exact ih hoccurs

lemma toList_mergeComment (path : String) :
    (mergeComment path).toList = spaceHyphens ("MERGEFIELD:".toList ++ path.toList) :=
  String.toList_ofList

lemma endsAt_mergeComment (path : String) :
    Markup.EndsAt "-->".toList (mergeComment path).toList := by
  rw [toList_mergeComment]
  exact @Markup.endsAt_of_absent ['-', '-'] _ '>' (by decide) fun hoccurs =>
    not_occurs_spaceHyphens _ ((List.prefix_append ['-', '-'] ['>']).isInfix.trans hoccurs)

namespace Markup

open Text

/-! ## Contents with placeholders -/

/-- What is inside of a text element that has been substituted. -/
def placeholderContent (placeholder : String) : Content :=
  if placeholder.isEmpty then .nil else .leaf (.text placeholder.toList) .nil

/-- A content and what substitutions make of it: some elements record paths and have the
placeholder inside, and there are comments beside them. -/
inductive Content.Filled (placeholder : String) : Content → Content → Prop
  | nil : Filled placeholder nil nil
  | comment (path : String) {content content' : Content}
      (tail : Filled placeholder content content') :
    Filled placeholder content (leaf (.comment (mergeComment path).toList) content')
  | leaf (head : Leaf) {rest rest' : Content} (tail : Filled placeholder rest rest') :
    Filled placeholder (leaf head rest) (leaf head rest')
  | element (opening : Opening) {content content' rest rest' : Content}
      (empty : content = nil → content' = nil) (inner : Filled placeholder content content')
      (tail : Filled placeholder rest rest') :
    Filled placeholder (element opening content rest) (element opening content' rest')
  | target (opening : Opening) (path : String) (content : Content) {rest rest' : Content}
      (tail : Filled placeholder rest rest') :
    Filled placeholder (element opening content rest)
      (element (opening.record path) (placeholderContent placeholder) rest')

namespace Content

namespace Filled

variable {placeholder : String} {content content' : Content}

lemma fits (h : Filled placeholder content content') (hfits : content.Fits) : content'.Fits := by
  induction h with
  | nil => trivial
  | comment path _ ih => exact ⟨trivial, ih hfits⟩
  | leaf head _ ih => exact ⟨hfits.1, ih hfits.2⟩
  | element opening _ _ _ ihInner ihTail => exact ⟨hfits.1, ihInner hfits.2.1, ihTail hfits.2.2⟩
  | target opening path _ _ ih =>
    refine ⟨hfits.1.record path, ?_, ih hfits.2.2⟩
    unfold placeholderContent
    split
    · trivial
    · exact ⟨trivial, trivial⟩

lemma roots_eq (h : Filled placeholder content content') : content'.roots = content.roots := by
  induction h with
  | nil => rfl
  | comment _ _ ih => exact ih
  | leaf _ _ ih => exact ih
  | element _ _ _ _ _ ih => exact congrArg (· + 1) ih
  | target _ _ _ _ ih => exact congrArg (· + 1) ih

lemma blank (h : Filled placeholder content content') (hblank : content.Blank) :
    content'.Blank := by
  induction h with
  | nil => trivial
  | comment _ _ ih => exact ih hblank
  | leaf head _ ih =>
    cases head with
    | text value => exact ⟨hblank.1, ih hblank.2⟩
    | _ => exact ih hblank
  | element _ _ _ _ _ ih => exact ih hblank
  | target _ _ _ _ ih => exact ih hblank

lemma textFirst_events (h : Filled placeholder content content')
    (hfirst : textFirst content.events = false) : textFirst content'.events = false := by
  cases h with
  | nil => rfl
  | comment _ _ => rfl
  | leaf head _ => exact hfirst
  | element opening _ _ _ => exact Opening.textFirst_events
  | target opening _ _ _ => exact Opening.textFirst_events

lemma separated_placeholderContent (placeholder : String) :
    Separated (placeholderContent placeholder).events := by
  unfold placeholderContent
  split
  · trivial
  · exact ⟨fun _ => rfl, trivial⟩

lemma separated (h : Filled placeholder content content') (hseparated : Separated content.events) :
    Separated content'.events := by
  induction h with
  | nil => trivial
  | comment _ _ ih => exact ⟨fun htext => (by cases htext), ih hseparated⟩
  | leaf head tail ih =>
    exact ⟨fun htext => tail.textFirst_events (hseparated.1 htext), ih hseparated.2⟩
  | element opening _ _ _ ihInner ihTail =>
    obtain ⟨hinner, htail⟩ := Opening.separated_events_iff.1 hseparated
    exact Opening.separated_events_iff.2 ⟨ihInner hinner, ihTail htail⟩
  | target opening _ _ _ ih =>
    obtain ⟨-, htail⟩ := Opening.separated_events_iff.1 hseparated
    exact Opening.separated_events_iff.2 ⟨separated_placeholderContent placeholder, ih htail⟩

lemma eq_nil (h : Filled placeholder content Content.nil) : content = Content.nil := by
  cases h with
  | nil => rfl

/-- A tag with a path recorded is written like the tag, with a placeholder behind it unless this is
empty. -/
lemma drafted_target {opening : Opening} (hkeyed : opening.Keyed) (htag : IsTag opening.tag)
    (path : String) :
    Drafted ((opening.record path).events (placeholderContent placeholder).events) := by
  have hrecord := Opening.isTag_record htag path
  unfold placeholderContent
  split
  next =>
    refine .cons ⟨hrecord, ?_⟩ .nil
    rintro tag ⟨⟩
    exact ⟨_, hkeyed.record path, rfl⟩
  next hempty =>
    have htext : (Event.text (escapeText placeholder.toList)).Written := by
      refine .of_tag? ⟨escapeText_ne_nil fun hnil => ?_, lt_not_mem_escapeText _⟩ rfl
      rw [String.toList_eq_nil_iff] at hnil
      exact hempty (String.isEmpty_iff.2 hnil)
    refine .around ⟨hrecord, ?_⟩ (Opening.proper_record opening path) htext .nil
    rintro tag ⟨⟩
    exact ⟨_, hkeyed.record path, rfl⟩

lemma drafted (h : Filled placeholder content content') (hfits : content.Fits)
    (hwritten : ∀ event ∈ content.events, event.Written) : Drafted content'.events := by
  induction h with
  | nil => exact .nil
  | comment path _ ih => exact .cons (.of_tag? (endsAt_mergeComment path) rfl) (ih hfits hwritten)
  | leaf head _ ih =>
    obtain ⟨hhead, htail⟩ := List.forall_mem_cons.1 hwritten
    exact .cons hhead (ih hfits.2 htail)
  | @element opening content content' _ _ empty inner _ ihInner ihTail =>
    obtain ⟨-, hinner, htail⟩ := hfits
    obtain ⟨hevents, hrest⟩ := List.forall_mem_append.1 hwritten
    have hempty : content'.events.isEmpty = content.events.isEmpty := by
      rw [Bool.eq_iff_iff, List.isEmpty_iff, List.isEmpty_iff, events_eq_nil_iff, events_eq_nil_iff]
      exact ⟨fun heq => (heq ▸ inner).eq_nil, empty⟩
    refine .append ?_ (ihTail htail hrest)
    rw [Opening.forall_events_iff] at hevents
    rw [Opening.events, hempty]
    split at hevents
    next hnil =>
      rw [if_pos hnil]
      exact .cons hevents .nil
    next hne =>
      rw [if_neg hne]
      exact .cons hevents.1 ((ihInner hinner hevents.2.1).append (.cons hevents.2.2 .nil))
  | target opening path _ _ ih =>
    obtain ⟨hevents, hrest⟩ := List.forall_mem_append.1 hwritten
    have htag : IsTag opening.tag := by
      rw [Opening.forall_events_iff] at hevents
      split at hevents
      · exact hevents.readable.isTag rfl
      · exact hevents.1.readable.isTag rfl
    exact (drafted_target hfits.1 htag path).append (ih hfits.2.2 hrest)

/-- Of a document that comes by substitutions from one that could be built from markup there is a
draft. -/
theorem drafts {d : Document} (h : Filled placeholder content content')
    (hbuilds : content.Builds d) :
    content'.Drafts (Document.ofForest (content'.trees [])) := by
  obtain ⟨hblank, hroots⟩ := hbuilds.blank_roots
  exact Content.drafts (h.fits hbuilds.fits) (h.blank hblank) (h.roots_eq.trans hroots)
    (h.drafted hbuilds.fits hbuilds.written) (h.separated hbuilds.separated)

end Filled

end Content

end Markup

namespace Document

open Markup

variable {d d' : Document} {options : Options} {targets : List (NodeId × String)}

/-- Comments in front of nodes that show a content. -/
lemma exists_filled_append {placeholder : String} {content content' : Content}
    {scopes : List (List Binding)} {ids new : List NodeId}
    (h : content.Filled placeholder content')
    (hshows : List.Forall₂ d.Shows ids (content'.trees scopes))
    (hnew : ∀ x ∈ new, d.children x = [] ∧ ∃ path, d.kind x = .comment (mergeComment path)) :
    ∃ content'' : Content, content.Filled placeholder content'' ∧
      List.Forall₂ d.Shows (new ++ ids) (content''.trees scopes) := by
  induction new with
  | nil => exact ⟨content', h, hshows⟩
  | cons x new ih =>
    obtain ⟨⟨hchildren, path, hkind⟩, hrest⟩ := List.forall_mem_cons.1 hnew
    obtain ⟨content'', h', hshows'⟩ := ih hrest
    refine ⟨_, .comment path h', .cons (.intro ?_ ?_) hshows'⟩
    · rw [hkind, Leaf.kind, String.ofList_toList]
    · rw [hchildren]
      exact .nil

namespace Substituted

/-- A text element that was substituted shows the placeholder. -/
lemma shows_placeholder (h : Substituted d d' options targets) {x : NodeId}
    (hx : x ∈ targets.map Prod.fst) (scopes : List (List Binding)) :
    List.Forall₂ d'.Shows (d'.children x)
      ((placeholderContent options.placeholder).trees scopes) := by
  have hchildren := h.children_target x hx
  unfold placeholderContent
  split at hchildren
  next hempty =>
    rw [hchildren, if_pos hempty]
    exact .nil
  next hne =>
    obtain ⟨text, htext, hnew, hkind⟩ := hchildren
    rw [htext, if_neg hne]
    refine .cons (.intro ?_ ?_) .nil
    · rw [hkind, Leaf.kind, String.ofList_toList]
    · rw [h.children_eq_nil hnew]
      exact .nil

/-- What substitutions make of nodes that show a content, with the new nodes among them. -/
theorem exists_filled (h : Substituted d d' options targets) {content : Content}
    {scopes : List (List Binding)} {ids ids' : List NodeId}
    (hshows : List.Forall₂ d.Shows ids (content.trees scopes))
    (hold : ids'.filter (· < d.size) = ids)
    (hnew : ∀ x ∈ ids', d.size ≤ x → ∃ path, d'.kind x = .comment (mergeComment path)) :
    ∃ content' : Content, content.Filled options.placeholder content' ∧
      List.Forall₂ d'.Shows ids' (content'.trees scopes) := by
  have hnote : ∀ {new ids' : List NodeId}, (∀ x ∈ new, ¬ decide (x < d.size) = true) →
      (∀ x ∈ new ++ ids', d.size ≤ x → ∃ path, d'.kind x = .comment (mergeComment path)) →
      ∀ x ∈ new, d'.children x = [] ∧ ∃ path, d'.kind x = .comment (mergeComment path) := by
    intro new ids' hnot hnew x hx
    have hge : d.size ≤ x := by simpa using hnot x hx
    exact ⟨h.children_eq_nil hge, hnew x (List.mem_append_left _ hx) hge⟩
  induction content generalizing scopes ids ids' with
  | nil =>
    obtain rfl := List.forall₂_nil_right_iff.1 hshows
    have hnot := List.filter_eq_nil_iff.1 hold
    rw [← List.append_nil ids'] at hnew ⊢
    exact exists_filled_append .nil .nil (hnote hnot hnew)
  | leaf head rest ih =>
    obtain ⟨id, ids, hid, hids, rfl⟩ := List.forall₂_cons_right_iff.1 hshows
    obtain ⟨new, others, rfl, hnot, hlt, hothers⟩ := List.filter_eq_cons_iff.1 hold
    have hid' : id ∉ targets.map Prod.fst := by
      intro hmem
      obtain ⟨e, hkind⟩ := exists_element_of_isWord (h.isWord id hmem)
      rw [hid.kind_eq] at hkind
      cases head <;> cases hkind
    obtain ⟨content', hfilled, hshows'⟩ := ih hids hothers fun x hx =>
      hnew x (List.mem_append_right _ (List.mem_cons_of_mem _ hx))
    refine exists_filled_append (.leaf head hfilled) (.cons (.intro ?_ ?_) hshows')
      (hnote hnot hnew)
    · rw [h.kind_eq id (of_decide_eq_true hlt) hid', hid.kind_eq]
    · rw [h.children_eq_of_forall hid' (by simp [hid.children_nil]), hid.children_nil]
      exact .nil
  | element opening content rest ihContent ihRest =>
    obtain ⟨id, ids, hid, hids, rfl⟩ := List.forall₂_cons_right_iff.1 hshows
    obtain ⟨new, others, rfl, hnot, hlt, hothers⟩ := List.filter_eq_cons_iff.1 hold
    obtain ⟨rest', hrest, hshows'⟩ := ihRest hids hothers fun x hx =>
      hnew x (List.mem_append_right _ (List.mem_cons_of_mem _ hx))
    by_cases hid' : id ∈ targets.map Prod.fst
    · obtain ⟨e, path, -, -, -, -, hkind, hkind'⟩ := h.kind_target id hid'
      obtain rfl : opening.element scopes = e := NodeKind.element.inj (hid.kind_eq.symm.trans hkind)
      rw [← Opening.element_record] at hkind'
      exact exists_filled_append (.target opening path content hrest)
        (.cons (.intro hkind' (h.shows_placeholder hid' _)) hshows') (hnote hnot hnew)
    · obtain ⟨content', hfilled, hinner⟩ := ihContent hid.forest (h.children_eq id hid')
        fun x hx hge => by
          obtain ⟨-, target, -, -, hkind⟩ := h.children_new id hid' x hx hge
          exact ⟨target.2, hkind⟩
      refine exists_filled_append (.element opening ?_ hfilled hrest)
        (.cons (.intro ?_ hinner) hshows') (hnote hnot hnew)
      · rintro rfl
        rw [h.children_eq_of_forall hid' (by simp [hid.children_nil]), hid.children_nil] at hinner
        have htrees := List.forall₂_nil_left_iff.1 hinner
        cases content' with
        | nil => rfl
        | _ => cases htrees
      · rw [h.kind_eq id (of_decide_eq_true hlt) hid', hid.kind_eq]

end Substituted

end Document

end WordFields
