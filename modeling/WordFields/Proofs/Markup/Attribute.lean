import Mathlib.Algebra.BigOperators.Group.List.Basic
import Mathlib.Data.List.Nodup
import Mathlib.Data.List.TakeWhile
import WordFields.Markup.Builder
import WordFields.Markup.Printer
import WordFields.Proofs.Markup.Reference
import WordFields.Proofs.Text.Search

/-!
# Start tags are read as they are written

A start tag says a name and, for some keys, a value.  `Opening` is what it says when the spelling is
forgotten, and `Opening.tag` is the spelling that is used for writing.  The keys that the reader
accepts are exactly those of `Opening.Keyed`, and a tag with such keys is read back from its spelling
(`readAttributes_tag`).
-/

namespace WordFields

lemma QualifiedName.toChars_ofChars (raw : List Char) : (ofChars raw).toChars = raw := by
  unfold ofChars
  split
  next before after hcut =>
    have htext := (Text.cut?_eq_some hcut []).1
    simpa [toChars] using htext.symm
  next => simp [toChars]

namespace Markup

open Text Builder

/-- What a start tag says: a name, and the values of some keys with references resolved. -/
structure Opening where
  name : List Char
  attributes : List (List Char × String)
  deriving DecidableEq

/-- A key as the reader finds one. -/
def IsKey (key : List Char) : Prop :=
  ∃ c rest, key = c :: rest ∧ isSpace c = false ∧ ∀ d ∈ rest, continuesKey d = true

/-- One attribute, with the space before it. -/
def spellAttribute (a : List Char × String) : List Char :=
  ' ' :: (a.1 ++ '=' :: '"' :: (escapeValue a.2.toList ++ ['"']))

namespace Opening

/-- The tag in the spelling that is used for writing. -/
def tag (opening : Opening) : Tag :=
  ⟨opening.name, opening.attributes.flatMap spellAttribute⟩

def bindings (opening : Opening) : List Binding :=
  opening.attributes.filterMap fun (key, value) => Binding.ofAttribute? key value

/-- The element under the bindings of the elements around it. -/
def element (scopes : List (List Binding)) (opening : Opening) : Element :=
  elementOf (opening.bindings :: scopes) opening.name opening.attributes

/-- Whether the keys can be read, and are all different. -/
structure Keyed (opening : Opening) : Prop where
  isKey : ∀ a ∈ opening.attributes, IsKey a.1
  nodup : (opening.attributes.map Prod.fst).Nodup

/-- What the start tag of an element says. -/
def ofElement (e : Element) : Opening :=
  ⟨e.name.toChars, e.attributes.map fun a => (a.name.toChars, a.value)⟩

lemma ofElement_element (scopes : List (List Binding)) (opening : Opening) :
    ofElement (opening.element scopes) = opening := by
  simp [ofElement, element, elementOf, QualifiedName.toChars_ofChars, Function.comp_def]

lemma tagMarkup_eq (e : Element) : Document.tagMarkup e = (ofElement e).tag.content := by
  rw [Document.tagMarkup, tag, Tag.content, ofElement, List.flatMap_map]
  congr 1
  refine List.flatMap_congr fun a _ => ?_
  simp [Document.attributeMarkup, spellAttribute]

lemma tagMarkup_element (scopes : List (List Binding)) (opening : Opening) :
    Document.tagMarkup (opening.element scopes) = opening.tag.content := by
  rw [tagMarkup_eq, ofElement_element]

lemma begins_rest (opening : Opening) :
    StartsIn (isSpace · = true) opening.tag.rest := by
  rw [tag]
  cases opening.attributes with
  | nil => exact startsIn_nil _
  | cons a attributes =>
    rw [List.flatMap_cons, spellAttribute, List.cons_append]
    exact startsIn_cons.2 rfl

end Opening

/-- Pieces that are not empty are no more than the characters in them. -/
lemma length_le_length_flatMap {α : Type} {items : List α} {write : α → List Char}
    (h : ∀ a ∈ items, write a ≠ []) : items.length ≤ (items.flatMap write).length := by
  rw [List.length_flatMap]
  calc items.length = (items.map fun a => (write a).length).length := (List.length_map _).symm
    _ ≤ (items.map fun a => (write a).length).sum := List.length_le_sum_of_one_le _ fun n hn => by
      obtain ⟨a, ha, rfl⟩ := List.mem_map.1 hn
      exact List.length_pos_iff.2 (h a ha)

/-! ## Reading what was written -/

lemma skipSpace_cons {c : Char} (h : isSpace c = false) (text : List Char) :
    skipSpace (c :: text) = c :: text :=
  List.dropWhile_cons_of_neg (by simp [h])

lemma not_space_of_skipSpace {text rest : List Char} {c : Char} (h : skipSpace text = c :: rest) :
    isSpace c = false :=
  startsIn_dropWhile isSpace text c (by rw [← skipSpace, h]; rfl)

lemma readValue_spelled (total : Nat) {value : List Char} (hvalue : '"' ∉ value)
    (rest : List Char) : readValue total ('"' :: (value ++ '"' :: rest)) = .ok (value, rest) := by
  have hquote : skipSpace ('"' :: (value ++ '"' :: rest)) = '"' :: (value ++ '"' :: rest) :=
    skipSpace_cons (by decide) _
  simp only [readValue, hquote, true_or, if_true, cut?_singleton hvalue rest]

lemma readAttribute_spelled (total : Nat) {seen : List RawAttribute} {c : Char} {key : List Char}
    (hkey : ∀ d ∈ key, continuesKey d = true) (hfresh : ∀ a ∈ seen, a.key ≠ c :: key)
    {value : List Char} (hvalue : '"' ∉ value) (rest : List Char) :
    ∃ position, readAttribute total seen c (key ++ '=' :: '"' :: (value ++ '"' :: rest)) =
      .ok (⟨c :: key, value, position⟩, rest) := by
  have htake : (key ++ '=' :: '"' :: (value ++ '"' :: rest)).takeWhile continuesKey = key := by
    rw [List.takeWhile_append_of_pos hkey]
    simp [continuesKey]
  have hdrop : (key ++ '=' :: '"' :: (value ++ '"' :: rest)).dropWhile continuesKey =
      '=' :: '"' :: (value ++ '"' :: rest) := by
    rw [List.dropWhile_append_of_pos hkey]
    simp [continuesKey]
  have hequals : skipSpace ('=' :: '"' :: (value ++ '"' :: rest)) =
      '=' :: '"' :: (value ++ '"' :: rest) := skipSpace_cons (by decide) _
  have hnone : (seen.find? fun a => a.key == c :: key) = none :=
    List.find?_eq_none.2 fun a ha => by simpa using hfresh a ha
  refine ⟨total - byteLength (c :: (key ++ '=' :: '"' :: (value ++ '"' :: rest))), ?_⟩
  simp only [readAttribute, htake, hdrop, hequals, ne_eq, not_true_eq_false, if_false, hnone,
    readValue_spelled total hvalue rest]

lemma readAttributesFrom_spelled (total : Nat) (seen : List RawAttribute)
    {attributes : List (List Char × String)} {steps : Nat} (hsteps : attributes.length ≤ steps)
    (hkey : ∀ a ∈ attributes, IsKey a.1) (hnodup : (attributes.map Prod.fst).Nodup)
    (hfresh : ∀ a ∈ attributes, ∀ raw ∈ seen, raw.key ≠ a.1) :
    ∃ raws, readAttributesFrom total steps seen (attributes.flatMap spellAttribute) =
        ⟨seen ++ raws, none⟩ ∧
      raws.map (fun raw => (raw.key, raw.value)) =
        attributes.map fun a => (a.1, escapeValue a.2.toList) := by
  induction attributes generalizing seen steps with
  | nil => exact ⟨[], by cases steps <;> simp [readAttributesFrom, skipSpace], rfl⟩
  | cons head attributes ih =>
    obtain ⟨key, value⟩ := head
    obtain ⟨steps, rfl⟩ : ∃ n, steps = n + 1 := ⟨steps - 1, by simp at hsteps; omega⟩
    obtain ⟨c, tail, rfl, hc, htail⟩ := hkey _ List.mem_cons_self
    obtain ⟨hnotMem, hnodup⟩ := List.nodup_cons.1 hnodup
    obtain ⟨position, hread⟩ := readAttribute_spelled total htail
      (hfresh _ List.mem_cons_self) (not_mem_escapeValue (.inl rfl) value.toList)
      (attributes.flatMap spellAttribute)
    have hsplit : ((c :: tail, value) :: attributes).flatMap spellAttribute =
        ' ' :: c :: (tail ++ '=' :: '"' :: (escapeValue value.toList ++ '"' ::
          attributes.flatMap spellAttribute)) := by
      simp [spellAttribute]
    have hskip : skipSpace (' ' :: c :: (tail ++ '=' :: '"' :: (escapeValue value.toList ++ '"' ::
        attributes.flatMap spellAttribute))) = c :: (tail ++ '=' :: '"' ::
          (escapeValue value.toList ++ '"' :: attributes.flatMap spellAttribute)) :=
      skipSpace_cons hc _
    obtain ⟨raws, hrest, hraws⟩ := ih
      (seen ++ [⟨c :: tail, escapeValue value.toList, position⟩])
      (Nat.le_of_succ_le_succ hsteps) (fun a ha => hkey a (List.mem_cons_of_mem _ ha)) hnodup
      fun a ha b hb heq => by
        rcases List.mem_append.1 hb with hb | hb
        · exact hfresh a (List.mem_cons_of_mem _ ha) b hb heq
        · obtain rfl := List.mem_singleton.1 hb
          exact hnotMem (List.mem_map.2 ⟨a, ha, heq.symm⟩)
    refine ⟨⟨c :: tail, escapeValue value.toList, position⟩ :: raws, ?_, ?_⟩
    · rw [hsplit, readAttributesFrom, hskip]
      simp only [hread]
      rw [hrest, List.append_assoc, List.singleton_append]
    · rw [List.map_cons, hraws, List.map_cons]

lemma resolveValues_escaped (place : Place) {raws : List RawAttribute}
    {attributes : List (List Char × String)}
    (h : raws.map (fun raw => (raw.key, raw.value)) =
      attributes.map fun a => (a.1, escapeValue a.2.toList)) :
    resolveValues place raws = .ok attributes := by
  induction raws generalizing attributes with
  | nil =>
    obtain rfl := List.map_eq_nil_iff.1 h.symm
    rfl
  | cons raw raws ih =>
    obtain ⟨a, attributes, rfl, hhead, htail⟩ := List.map_eq_cons_iff.1 h.symm
    obtain ⟨hkey, hvalue⟩ := Prod.mk.inj hhead
    rw [resolveValues, ← hvalue]
    simp only [resolve_escapeValue]
    rw [ih htail.symm, ← hkey]
    simp [Except.map]

/-- The attributes of a tag are read back from its spelling. -/
theorem readAttributes_tag {opening : Opening} (h : opening.Keyed) (place : Place) :
    readAttributes place opening.tag = .ok opening.attributes := by
  have hlength : opening.attributes.length ≤ opening.tag.rest.length + 1 :=
    Nat.le_succ_of_le (length_le_length_flatMap fun _ _ => List.cons_ne_nil _ _)
  obtain ⟨raws, hraws, hmap⟩ := readAttributesFrom_spelled (byteLength opening.tag.content) []
    hlength h.isKey h.nodup fun _ _ _ hmem => absurd hmem List.not_mem_nil
  rw [List.nil_append] at hraws
  have htag : opening.tag.attributes = ⟨raws, none⟩ := hraws
  simp only [readAttributes, htag, resolveValues_escaped place hmap]

/-! ## Spellings that are the usual one -/

/-- Where a text goes on with no space, no space is skipped. -/
lemma eq_of_skipSpace {text rest behind text' : List Char} {c d : Char}
    (h : skipSpace text = c :: rest) (htext : text ++ behind = d :: text')
    (hd : isSpace d = false) : d = c ∧ text = c :: rest ∧ rest ++ behind = text' := by
  cases text with
  | nil => cases h
  | cons e text =>
    obtain ⟨rfl, rfl⟩ := List.cons.inj htext
    rw [skipSpace_cons hd] at h
    obtain ⟨rfl, rfl⟩ := List.cons.inj h
    exact ⟨rfl, rfl, rfl⟩

/-- An attribute that is spelled in the usual way up to some point is spelled so altogether. -/
lemma eq_of_readAttribute {total : Nat} {seen : List RawAttribute} {c : Char}
    {text rest behind text' : List Char} {raw : RawAttribute} {value : String}
    (h : readAttribute total seen c text = .ok (raw, rest))
    (htext : c :: (text ++ behind) =
      raw.key ++ '=' :: '"' :: (escapeValue value.toList ++ '"' :: text')) :
    c :: text = raw.key ++ '=' :: '"' :: (escapeValue value.toList ++ '"' :: rest) ∧
      rest ++ behind = text' := by
  unfold readAttribute at h
  dsimp only at h
  split at h
  · cases h
  next d rest₁ hskip =>
    split_ifs at h
    split at h
    · cases h
    split at h
    next value' rest' hvalue =>
      cases h
      have hkey : text.takeWhile continuesKey ++ text.dropWhile continuesKey = text :=
        List.takeWhile_append_dropWhile
      have hbehind : text.dropWhile continuesKey ++ behind =
          '=' :: '"' :: (escapeValue value.toList ++ '"' :: text') := by
        rw [List.cons_append, List.cons.injEq, ← hkey, List.append_assoc, hkey,
          List.append_cancel_left_eq] at htext
        exact htext.2
      obtain ⟨rfl, hdrop, hbehind⟩ := eq_of_skipSpace hskip hbehind (by decide)
      unfold readValue at hvalue
      split at hvalue
      · cases hvalue
      next quote body hskip =>
        obtain ⟨rfl, hrest, hbehind⟩ := eq_of_skipSpace hskip hbehind (by decide)
        split_ifs at hvalue
        split at hvalue
        next value₁ rest₂ hcut =>
          cases hvalue
          have hbody := (cut?_eq_some hcut []).1
          rw [hbody, List.append_assoc, List.append_assoc, List.singleton_append] at hbehind
          obtain ⟨rfl, htail⟩ := append_cons_inj (not_mem_of_cut?_singleton hcut)
            (not_mem_escapeValue (.inl rfl) value.toList) hbehind
          refine ⟨?_, htail⟩
          rw [List.singleton_append] at hbody
          rw [List.cons_append, ← hbody, ← hrest, ← hdrop, hkey]
        next => cases hvalue
    next => cases h

lemma key_of_readAttribute {total : Nat} {seen : List RawAttribute} {c : Char}
    {text rest : List Char} {raw : RawAttribute}
    (h : readAttribute total seen c text = .ok (raw, rest)) :
    raw.key = c :: text.takeWhile continuesKey := by
  unfold readAttribute at h
  dsimp only at h
  split at h
  · cases h
  split_ifs at h
  split at h
  · cases h
  split at h
  · cases h
    rfl
  · cases h

lemma exists_of_readAttributesFrom (total steps : Nat) (seen : List RawAttribute)
    (text : List Char) :
    ∃ raws, (readAttributesFrom total steps seen text).attributes = seen ++ raws := by
  induction steps generalizing seen text with
  | zero => exact ⟨[], (List.append_nil seen).symm⟩
  | succ steps ih =>
    rw [readAttributesFrom]
    split
    · exact ⟨[], (List.append_nil seen).symm⟩
    · split
      · exact ⟨[], (List.append_nil seen).symm⟩
      next raw rest _ =>
        obtain ⟨raws, hraws⟩ := ih (seen ++ [raw]) rest
        exact ⟨raw :: raws, by rw [hraws, List.append_assoc, List.singleton_append]⟩

/-- Attributes that are spelled in the usual way up to some point are spelled so altogether. -/
lemma eq_of_readAttributesFrom {total steps : Nat} {seen raws : List RawAttribute}
    {text behind behind' : List Char} {attributes : List (List Char × String)}
    (hsteps : text.length < steps)
    (hread : readAttributesFrom total steps seen text = ⟨seen ++ raws, none⟩)
    (hkeys : attributes.map Prod.fst = raws.map RawAttribute.key)
    (htext : text ++ behind = attributes.flatMap spellAttribute ++ behind')
    (hbehind : StartsIn (isSpace · = false) behind') :
    text = attributes.flatMap spellAttribute := by
  induction steps generalizing seen raws text attributes with
  | zero => exact absurd hsteps (Nat.not_lt_zero _)
  | succ steps ih =>
    rw [readAttributesFrom] at hread
    split at hread
    next hskip =>
      have hnil : raws = [] := by simpa using congrArg AttributeList.attributes hread
      rw [hnil] at hkeys
      obtain rfl := List.map_eq_nil_iff.1 hkeys
      cases text with
      | nil => rfl
      | cons c text =>
        rw [List.flatMap_nil, List.nil_append] at htext
        rw [← htext, List.cons_append, startsIn_cons] at hbehind
        rw [skipSpace_cons hbehind] at hskip
        cases hskip
    next c text₁ hskip =>
      split at hread
      · simp at hread
      next raw rest hraw =>
        have hc : isSpace c = false := not_space_of_skipSpace hskip
        obtain ⟨raws', hraws'⟩ := exists_of_readAttributesFrom total steps (seen ++ [raw]) rest
        have hraws : raws = raw :: raws' := by
          rw [hread, List.append_assoc, List.singleton_append] at hraws'
          exact List.append_cancel_left hraws'
        rw [hraws] at hkeys hread
        obtain ⟨⟨key, value⟩, attributes, rfl, rfl, htail⟩ := List.map_eq_cons_iff.1 hkeys
        have hspelled : text ++ behind = ' ' :: (raw.key ++ '=' :: '"' ::
            (escapeValue value.toList ++ '"' ::
              (attributes.flatMap spellAttribute ++ behind'))) := by
          rw [htext, List.flatMap_cons, spellAttribute]
          simp
        obtain ⟨text, rfl⟩ : ∃ text', text = ' ' :: text' := by
          cases text with
          | nil => cases hskip
          | cons d text => exact ⟨text, by rw [(List.cons.inj hspelled).1]⟩
        have hskip : skipSpace text = c :: text₁ := hskip
        have hspelled : text ++ behind = c :: (text₁.takeWhile continuesKey ++ '=' :: '"' ::
            (escapeValue value.toList ++ '"' ::
              (attributes.flatMap spellAttribute ++ behind'))) := by
          refine (List.cons.inj hspelled).2.trans ?_
          rw [key_of_readAttribute hraw]
          rfl
        obtain ⟨-, rfl, -⟩ := eq_of_skipSpace hskip hspelled hc
        rw [← List.cons_append, ← key_of_readAttribute hraw] at hspelled
        obtain ⟨htext₁, hbehind₁⟩ := eq_of_readAttribute hraw hspelled
        have hlength : rest.length < steps := by
          have heq := congrArg List.length htext₁
          simp only [List.length_append, List.length_cons] at heq hsteps
          omega
        have hseen : readAttributesFrom total steps (seen ++ [raw]) rest =
            ⟨(seen ++ [raw]) ++ raws', none⟩ := by
          rw [hread, List.append_assoc, List.singleton_append]
        rw [List.flatMap_cons, ← ih hlength hseen htail hbehind₁, htext₁, spellAttribute]
        simp

/-- Where attributes in the usual spelling end is to be seen from the text behind them. -/
lemma flatMap_spellAttribute_inj {attributes attributes' : List (List Char × String)}
    {behind behind' : List Char} (hkeys : ∀ a ∈ attributes, IsKey a.1)
    (hkeys' : ∀ a ∈ attributes', IsKey a.1) (hbehind : StartsIn (isSpace · = false) behind)
    (hbehind' : StartsIn (isSpace · = false) behind')
    (h : attributes.flatMap spellAttribute ++ behind =
      attributes'.flatMap spellAttribute ++ behind') : attributes = attributes' := by
  induction attributes generalizing attributes' with
  | nil =>
    cases attributes' with
    | nil => rfl
    | cons a' attributes' =>
      have hspace := hbehind ' ' (congrArg List.head? h)
      exact absurd hspace (by decide)
  | cons a attributes ih =>
    cases attributes' with
    | nil =>
      have hspace := hbehind' ' ' (congrArg List.head? h).symm
      exact absurd hspace (by decide)
    | cons a' attributes' =>
      obtain ⟨key, value⟩ := a
      obtain ⟨key', value'⟩ := a'
      obtain ⟨hhead, htail⟩ := List.forall_mem_cons.1 hkeys
      obtain ⟨hhead', htail'⟩ := List.forall_mem_cons.1 hkeys'
      obtain ⟨c, rest, rfl, -, hrest⟩ := hhead
      obtain ⟨c', rest', rfl, -, hrest'⟩ := hhead'
      have hequals : ∀ {text : List Char}, (∀ d ∈ text, continuesKey d = true) → '=' ∉ text :=
        fun htext hmem => absurd (htext _ hmem) (by decide)
      simp only [List.flatMap_cons, spellAttribute, List.cons_append, List.append_assoc,
        List.nil_append, List.cons.injEq, true_and] at h
      obtain ⟨rfl, hkey⟩ := h
      obtain ⟨rfl, hquote⟩ := append_cons_inj (hequals hrest) (hequals hrest') hkey
      obtain ⟨hvalue, hothers⟩ := append_cons_inj (not_mem_escapeValue (.inl rfl) value.toList)
        (not_mem_escapeValue (.inl rfl) value'.toList) (List.cons.inj hquote).2
      rw [String.toList_injective (escapeValue_injective hvalue), ih htail htail' hothers]

/-! ## What can be read -/

/-- Attributes that have been read have keys, all different. -/
structure RawKeyed (raws : List RawAttribute) : Prop where
  isKey : ∀ raw ∈ raws, IsKey raw.key
  nodup : (raws.map RawAttribute.key).Nodup

lemma RawKeyed.of_readAttribute {total : Nat} {seen : List RawAttribute} {c : Char}
    {text rest : List Char} {raw : RawAttribute} (h : RawKeyed seen) (hc : isSpace c = false)
    (hread : readAttribute total seen c text = .ok (raw, rest)) : RawKeyed (seen ++ [raw]) := by
  unfold readAttribute at hread
  dsimp only at hread
  split at hread
  · cases hread
  split_ifs at hread
  split at hread
  · cases hread
  next hfresh =>
    split at hread
    next value rest' _ =>
      cases hread
      have hkey : IsKey (c :: text.takeWhile continuesKey) :=
        ⟨c, _, rfl, hc, fun d hd => List.all_eq_true.1 List.all_takeWhile d hd⟩
      constructor
      · intro raw hraw
        rcases List.mem_append.1 hraw with hraw | hraw
        · exact h.isKey raw hraw
        · obtain rfl := List.mem_singleton.1 hraw
          exact hkey
      · rw [List.map_append, List.nodup_append]
        refine ⟨h.nodup, List.nodup_singleton _, ?_⟩
        intro key hkey' key' hsingle heq
        obtain ⟨a, ha, rfl⟩ := List.mem_map.1 hkey'
        obtain rfl := List.mem_singleton.1 hsingle
        have hne := List.find?_eq_none.1 hfresh a ha
        exact hne (beq_iff_eq.2 heq)
    next => cases hread

lemma RawKeyed.of_readAttributesFrom {total steps : Nat} {seen : List RawAttribute}
    {text : List Char} (h : RawKeyed seen) :
    RawKeyed (readAttributesFrom total steps seen text).attributes := by
  induction steps generalizing seen text with
  | zero => exact h
  | succ steps ih =>
    rw [readAttributesFrom]
    split
    · exact h
    next c text' hskip =>
      split
      · exact h
      next raw rest hread =>
        have hc : isSpace c = false := not_space_of_skipSpace hskip
        exact ih (h.of_readAttribute hc hread)

lemma keys_of_resolveValues {place : Place} {raws : List RawAttribute}
    {attributes : List (List Char × String)} (h : resolveValues place raws = .ok attributes) :
    attributes.map Prod.fst = raws.map RawAttribute.key := by
  induction raws generalizing attributes with
  | nil =>
    cases h
    rfl
  | cons raw raws ih =>
    rw [resolveValues] at h
    split at h
    · cases h
    next value _ =>
      cases hrest : resolveValues place raws with
      | error e =>
        rw [hrest] at h
        cases h
      | ok rest =>
        rw [hrest] at h
        cases h
        rw [List.map_cons, List.map_cons, ih hrest]

/-- Where attributes can be read there are raw ones with the same keys. -/
lemma attributes_of_readAttributes {place : Place} {tag : Tag}
    {attributes : List (List Char × String)} (h : readAttributes place tag = .ok attributes) :
    ∃ raws, tag.attributes = ⟨raws, none⟩ ∧
      attributes.map Prod.fst = raws.map RawAttribute.key := by
  unfold readAttributes at h
  split at h
  · cases h
  · cases h
  next values hvalues hfault =>
    cases h
    exact ⟨tag.attributes.attributes, by rw [← hfault], keys_of_resolveValues hvalues⟩

/-- A tag whose attributes are spelled in the usual way up to some point is so altogether. -/
theorem rest_eq_of_readAttributes {place : Place} {tag : Tag}
    {attributes : List (List Char × String)} (h : readAttributes place tag = .ok attributes)
    {behind behind' : List Char}
    (htext : tag.rest ++ behind = attributes.flatMap spellAttribute ++ behind')
    (hbehind : StartsIn (isSpace · = false) behind') :
    tag.rest = attributes.flatMap spellAttribute := by
  obtain ⟨raws, hraws, hkeys⟩ := attributes_of_readAttributes h
  exact eq_of_readAttributesFrom (Nat.lt_succ_self _) hraws hkeys htext hbehind

/-- In a tag without attributes nothing but spaces is behind the name. -/
lemma isSpace_of_readAttributes_nil {place : Place} {tag : Tag}
    (h : readAttributes place tag = .ok []) : ∀ c ∈ tag.rest, isSpace c = true := by
  obtain ⟨raws, hraws, hkeys⟩ := attributes_of_readAttributes h
  obtain rfl := List.map_eq_nil_iff.1 hkeys.symm
  rw [Tag.attributes, readAttributesFrom] at hraws
  split at hraws
  next hskip => exact List.dropWhile_eq_nil_iff.1 hskip
  next =>
    split at hraws
    · simp at hraws
    next raw rest _ =>
      obtain ⟨others, hothers⟩ := exists_of_readAttributesFrom (byteLength tag.content)
        tag.rest.length ([] ++ [raw]) rest
      rw [hraws] at hothers
      cases hothers

theorem Opening.keyed_of_readAttributes {place : Place} {tag : Tag}
    {attributes : List (List Char × String)} (h : readAttributes place tag = .ok attributes)
    (name : List Char) : Opening.Keyed ⟨name, attributes⟩ := by
  obtain ⟨raws, hraws, hkeys⟩ := attributes_of_readAttributes h
  have hraw : RawKeyed tag.attributes.attributes :=
    RawKeyed.of_readAttributesFrom ⟨fun _ hmem => absurd hmem List.not_mem_nil, List.nodup_nil⟩
  rw [hraws] at hraw
  constructor
  · intro a hmem
    have hkey : a.1 ∈ raws.map RawAttribute.key := hkeys ▸ List.mem_map_of_mem hmem
    obtain ⟨raw, hmem', heq⟩ := List.mem_map.1 hkey
    exact heq ▸ hraw.isKey raw hmem'
  · exact hkeys ▸ hraw.nodup

end Markup

end WordFields
