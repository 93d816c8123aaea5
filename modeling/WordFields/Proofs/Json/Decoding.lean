import Mathlib.Data.List.Forall2
import WordFields.Json.Decoder
import WordFields.Proofs.Json.Number

/-!
# Decoding what was written

A decoder *reads* a value as some result if it takes the written form of the value to the result,
whatever space is in front of it and whatever follows it (`Decoder.Reads`).  Readings are put
together as decoders are: lists from their items (`Reads.list`), records from their members
(`RecordReader.Fills.reads`), values of any kind by recursion (`reads_readValue`).

A written value is read to the depth of its brackets (`nesting`).  Its numbers have to be integers
of 64 bits (`Exact`), because a written double need not come back.
-/

namespace WordFields.Json

variable {α β σ : Type} {layout : Layout}

/-! ## Written values -/

mutual

/-- The largest number of brackets around a part of a value. -/
def nesting : Json → Nat
  | .null => 0
  | .bool _ => 0
  | .number _ => 0
  | .string _ => 0
  | .array items => itemsNesting items + 1
  | .object members => membersNesting members + 1

def itemsNesting : List Json → Nat
  | [] => 0
  | value :: rest => max value.nesting (itemsNesting rest)

def membersNesting : List (String × Json) → Nat
  | [] => 0
  | (_, value) :: rest => max value.nesting (membersNesting rest)

end

lemma itemsNesting_le_iff {items : List Json} {n : Nat} :
    itemsNesting items ≤ n ↔ ∀ value ∈ items, value.nesting ≤ n := by
  induction items with
  | nil => simp [itemsNesting]
  | cons value items ih => rw [itemsNesting, Nat.max_le, ih, List.forall_mem_cons]

lemma membersNesting_le_iff {members : List (String × Json)} {n : Nat} :
    membersNesting members ≤ n ↔ ∀ member ∈ members, member.2.nesting ≤ n := by
  induction members with
  | nil => simp [membersNesting]
  | cons member members ih => rw [membersNesting, Nat.max_le, ih, List.forall_mem_cons]

mutual

/-- Whether all numbers in a value are integers of 64 bits. -/
def Exact : Json → Prop
  | .null => True
  | .bool _ => True
  | .number (.integer n) => -(2 ^ 63) ≤ n ∧ n < 2 ^ 64
  | .number (.double _) => False
  | .string _ => True
  | .array items => ItemsExact items
  | .object members => MembersExact members

def ItemsExact : List Json → Prop
  | [] => True
  | value :: rest => value.Exact ∧ ItemsExact rest

def MembersExact : List (String × Json) → Prop
  | [] => True
  | (_, value) :: rest => value.Exact ∧ MembersExact rest

end

lemma itemsExact_map {f : α → Json} (h : ∀ a, (f a).Exact) (items : List α) :
    ItemsExact (items.map f) := by
  induction items with
  | nil => trivial
  | cons a items ih => exact ⟨h a, ih⟩

lemma exact_ofNat {n : Nat} (hn : n < Numeral.wordLimit) : (ofNat n).Exact := by
  have hn : n < 2 ^ 64 := hn
  exact ⟨by omega, by omega⟩

/-- A written integer starts with a digit or a minus sign. -/
lemma exists_literal (negative : Bool) (size : Nat) : ∃ c text, literal negative size = c :: text ∧
    (c = '-' || Numeral.isDigit c) = true := by
  cases negative with
  | true => exact ⟨'-', naturalText size, rfl, rfl⟩
  | false =>
    obtain ⟨c, digits, htext, hc⟩ := exists_naturalText size
    exact ⟨c, digits, htext, by rw [hc, Bool.or_true]⟩

lemma exists_integerText (n : Int) : ∃ c text, integerText n = c :: text ∧
    (c = '-' || Numeral.isDigit c) = true := by
  rw [← literal_eq_integerText]
  exact exists_literal _ _

lemma not_special_of_isDigit {c : Char} (h : (c = '-' || Numeral.isDigit c) = true) :
    isSpace c = false ∧ c ≠ ']' ∧ c ≠ 'n' := by
  refine ⟨?_, by rintro rfl; exact absurd h (by decide), by rintro rfl; exact absurd h (by decide)⟩
  by_contra hspace
  simp only [isSpace, Bool.not_eq_false, Bool.or_eq_true, decide_eq_true_eq] at hspace
  rcases hspace with ((rfl | rfl) | rfl) | rfl <;> exact absurd h (by decide)

/-- A written value starts with a character that is neither space nor a closing bracket, and with
an `n` only if it is `null`. -/
lemma exists_valueText (layout : Layout) (level : Nat) {value : Json} (h : value.Exact) :
    ∃ c text, valueText layout level value = c :: text ∧ isSpace c = false ∧ c ≠ ']' ∧
      (c ≠ 'n' ∨ value = .null) := by
  cases value with
  | null => exact ⟨'n', "ull".toList, rfl, by decide, by decide, .inr rfl⟩
  | bool value =>
    cases value with
    | true => exact ⟨'t', "rue".toList, rfl, by decide, by decide, .inl (by decide)⟩
    | false => exact ⟨'f', "alse".toList, rfl, by decide, by decide, .inl (by decide)⟩
  | number value =>
    cases value with
    | double d => exact h.elim
    | integer n =>
      obtain ⟨c, text, htext, hc⟩ := exists_integerText n
      obtain ⟨hspace, hbracket, hletter⟩ := not_special_of_isDigit hc
      exact ⟨c, text, htext, hspace, hbracket, .inl hletter⟩
  | string value => exact ⟨'"', _, rfl, by decide, by decide, .inl (by decide)⟩
  | array items =>
    refine ⟨'[', (valueText layout level (.array items)).tail, ?_, by decide, by decide,
      .inl (by decide)⟩
    rw [valueText, enclose]
    split_ifs <;> rfl
  | object members =>
    refine ⟨'\x7b', (valueText layout level (.object members)).tail, ?_, by decide, by decide,
      .inl (by decide)⟩
    rw [valueText, enclose]
    split_ifs <;> rfl

lemma skipSpace_append {space : List Char} (hspace : ∀ c ∈ space, isSpace c = true)
    (text : List Char) : skipSpace (space ++ text) = skipSpace text :=
  List.dropWhile_append_of_pos hspace

lemma skipSpace_cons {c : Char} (hc : isSpace c = false) (text : List Char) :
    skipSpace (c :: text) = c :: text :=
  List.dropWhile_cons_of_neg (by rw [hc]; exact Bool.false_ne_true)

/-- A value that starts like a number is read as one, whatever space is in front of it. -/
lemma readValue_of_readNumber {space : List Char} (hspace : ∀ c ∈ space, isSpace c = true)
    {c : Char} (hc : (c = '-' || Numeral.isDigit c) = true) {text rest : List Char}
    {n : JsonNumber} (hnumber : readNumber (c :: text) = .ok (n, rest)) (depth : Nat) :
    readValue (depth + 1) (space ++ c :: text) = .ok (.number n, rest) := by
  have hother : ∀ d ∈ ['"', '[', '\x7b', 'n', 't', 'f'], c ≠ d := by
    rintro d hd rfl
    have hall : ∀ d ∈ ['"', '[', '\x7b', 'n', 't', 'f'],
        (d = '-' || Numeral.isDigit d) = false := by
      simp [Numeral.isDigit]
    exact Bool.false_ne_true ((hall c hd).symm.trans hc)
  rw [readValue, skipSpace_append hspace, skipSpace_cons (not_special_of_isDigit hc).1]
  simp only [List.forall_mem_cons] at hother
  simp [hother, hc, hnumber, Except.map]

/-! ## Readings -/

/-- Whether a decoder reads a written value as the given result, whatever space is in front of it
and whatever follows, unless more of its brackets are open at once than may be. -/
def Decoder.Reads (layout : Layout) (decoder : Decoder α) (value : Json) (result : α) : Prop :=
  ∀ depth level space rest, value.nesting < depth → (∀ c ∈ space, isSpace c = true) →
    Delimited rest →
      decoder depth (space ++ (valueText layout level value ++ rest)) = .ok (result, rest)

/-! ### Arrays -/

lemma delimited_lineBreak (layout : Layout) (level : Nat) (text : List Char) {c : Char}
    (hc : c ∈ [',', ']', '\x7d', '\n']) : Delimited (layout.lineBreak level ++ c :: text) := by
  cases layout with
  | compact => exact delimited_cons hc
  | indented => exact delimited_cons (by decide)

lemma length_itemTexts (layout : Layout) (level : Nat) (values : List Json) :
    (itemTexts layout level values).length = values.length := by
  induction values with
  | nil => rfl
  | cons value values ih => rw [itemTexts, List.length_cons, List.length_cons, ih]

/-- Separated parts start as the first of them does. -/
lemma exists_separated (c : Char) (text separator : List Char) (parts : List (List Char))
    (rest : List Char) :
    ∃ text', (((c :: text) :: parts).intersperse separator).flatten ++ rest = c :: text' := by
  cases parts with
  | nil => exact ⟨_, rfl⟩
  | cons part parts => exact ⟨_, rfl⟩

/-- Items are read up to the closing bracket. -/
lemma readItems_itemTexts {item : List Char → Scan α} {level steps : Nat} {values : List Json}
    {results : List α}
    (hread : List.Forall₂ (fun value result => ∀ rest, Delimited rest →
      item (valueText layout level value ++ rest) = .ok (result, rest)) values results)
    (hexact : ItemsExact values) (hne : values ≠ []) (hsteps : values.length ≤ steps) (last : Nat)
    (rest : List Char) :
    readItems item steps
      (((itemTexts layout level values).intersperse (',' :: layout.lineBreak level)).flatten ++
        (layout.lineBreak last ++ ']' :: rest)) = .ok (results, rest) := by
  induction hread generalizing steps with
  | nil => exact absurd rfl hne
  | @cons value result values results hvalue hvalues ih =>
    obtain ⟨steps, rfl⟩ := Nat.exists_eq_add_one_of_ne_zero (Nat.ne_of_gt (Nat.lt_of_lt_of_le
      (Nat.succ_pos _) hsteps))
    cases values with
    | nil =>
      cases hvalues
      have hdelimited : Delimited (layout.lineBreak last ++ ']' :: rest) :=
        delimited_lineBreak layout last rest (by decide)
      have hskip : skipSpace (']' :: rest) = ']' :: rest := rfl
      rw [itemTexts, itemTexts, List.intersperse_singleton, List.flatten_singleton, readItems,
        hvalue _ hdelimited]
      simp only [skipSpace_lineBreak, hskip]
    | cons next values =>
      have hrest := ih hexact.2 (List.cons_ne_nil _ _) (Nat.le_of_succ_le_succ hsteps)
      obtain ⟨c, text, htext, hspace, hbracket, -⟩ := exists_valueText layout level hexact.2.1
      obtain ⟨text', htext'⟩ := exists_separated c text
        (',' :: layout.lineBreak level) (itemTexts layout level values)
        (layout.lineBreak last ++ ']' :: rest)
      rw [itemTexts, htext, htext'] at hrest
      have hcomma : ∀ text, skipSpace (',' :: text) = ',' :: text := fun _ => rfl
      have hdelimited : ∀ text, Delimited (',' :: text) := fun text => delimited_cons (by decide)
      rw [itemTexts, itemTexts, htext, List.intersperse_cons_cons, List.flatten_cons,
        List.flatten_cons, List.append_assoc, List.append_assoc, htext', List.cons_append,
        readItems, hvalue _ (hdelimited _)]
      simp only [hcomma, skipSpace_lineBreak, skipSpace_cons hspace]
      split
      next heq => cases heq
      next heq => exact absurd (List.cons.inj heq).1 hbracket
      next => rw [hrest]; rfl

/-- A written array is an opening bracket, and its items are read behind that. -/
lemma exists_readArray {item : List Char → Scan α} {level : Nat} {values : List Json}
    {results : List α}
    (hread : List.Forall₂ (fun value result => ∀ rest, Delimited rest →
      item (valueText layout (level + 1) value ++ rest) = .ok (result, rest)) values results)
    (hexact : ItemsExact values) (rest : List Char) :
    ∃ text, valueText layout level (.array values) ++ rest = '[' :: text ∧
      readArray item text = .ok (results, rest) := by
  cases values with
  | nil =>
    cases hread
    exact ⟨']' :: rest, rfl, rfl⟩
  | cons value values =>
    obtain ⟨c, text, htext, hspace, hbracket, -⟩ := exists_valueText layout (level + 1) hexact.1
    obtain ⟨text', htext'⟩ := exists_separated c text
      (',' :: layout.lineBreak (level + 1)) (itemTexts layout (level + 1) values)
      (layout.lineBreak level ++ ']' :: rest)
    refine ⟨layout.lineBreak (level + 1) ++ c :: text', ?_, ?_⟩
    · rw [← htext', valueText, itemTexts, htext, enclose, if_neg (by simp)]
      simp
    · have hlength := length_le_separated (',' :: layout.lineBreak (level + 1))
        (itemTexts layout (level + 1) (value :: values)) (layout.lineBreak level ++ ']' :: rest)
        (List.cons_ne_nil _ _) (by simp)
      rw [length_itemTexts] at hlength
      have hitems := readItems_itemTexts hread hexact (List.cons_ne_nil _ _) hlength level rest
      rw [itemTexts, htext, htext'] at hitems
      rw [readArray, skipSpace_lineBreak, skipSpace_cons hspace]
      split
      next heq => cases heq
      next heq => exact absurd (List.cons.inj heq).1 hbracket
      next => exact hitems

/-! ### Objects -/

lemma readColon_colon (layout : Layout) (text : List Char) :
    ∃ space, (∀ c ∈ space, isSpace c = true) ∧
      readColon (layout.colon ++ text) = .ok ((), space ++ text) := by
  cases layout with
  | compact => exact ⟨[], by simp, rfl⟩
  | indented => exact ⟨[' '], by simp [isSpace], rfl⟩

/-- The texts of members, one after the other, take a state to another one. -/
inductive TakesMembers (layout : Layout) (level : Nat)
    (member : σ → String → List Char → Scan σ) : σ → List (String × Json) → σ → Prop
  | nil (state : σ) : TakesMembers layout level member state [] state
  | cons {state next last : σ} {key : String} {value : Json} {members : List (String × Json)}
      (hmember : ∀ rest, Delimited rest →
        member state key (layout.colon ++ (valueText layout level value ++ rest)) =
          .ok (next, rest))
      (hrest : TakesMembers layout level member next members last) :
      TakesMembers layout level member state ((key, value) :: members) last

lemma length_memberTexts (layout : Layout) (level : Nat) (members : List (String × Json)) :
    (memberTexts layout level members).length = members.length := by
  induction members with
  | nil => rfl
  | cons member members ih => rw [memberTexts, List.length_cons, List.length_cons, ih]

/-- The text of a member behind the opening quote of its key. -/
def memberTail (layout : Layout) (level : Nat) (key : String) (value : Json) : List Char :=
  key.toList.flatMap escapeChar ++ '"' :: (layout.colon ++ valueText layout level value)

lemma memberTexts_cons (layout : Layout) (level : Nat) (key : String) (value : Json)
    (members : List (String × Json)) :
    memberTexts layout level ((key, value) :: members) =
      ('"' :: memberTail layout level key value) :: memberTexts layout level members := by
  simp [memberTexts, quote, memberTail]

/-- Members are read up to the closing brace. -/
lemma readMembers_memberTexts {member : σ → String → List Char → Scan σ} {level steps : Nat}
    {members : List (String × Json)} {state last : σ}
    (htakes : TakesMembers layout level member state members last) (hne : members ≠ [])
    (hsteps : members.length ≤ steps) (lastLevel : Nat) (rest : List Char) :
    readMembers readString member steps state
      (((memberTexts layout level members).intersperse (',' :: layout.lineBreak level)).flatten ++
        (layout.lineBreak lastLevel ++ '\x7d' :: rest)) = .ok (last, rest) := by
  induction htakes generalizing steps with
  | nil => exact absurd rfl hne
  | @cons state next last key value members hmember hmembers ih =>
    obtain ⟨steps, rfl⟩ := Nat.exists_eq_add_one_of_ne_zero (Nat.ne_of_gt (Nat.lt_of_lt_of_le
      (Nat.succ_pos _) hsteps))
    have hread : ∀ rest, readString (memberTail layout level key value ++ rest) =
        .ok (key, layout.colon ++ (valueText layout level value ++ rest)) := fun rest => by
      rw [memberTail, List.append_assoc, List.cons_append, readString_quote, List.append_assoc]
    rw [memberTexts_cons]
    cases members with
    | nil =>
      cases hmembers
      have hdelimited : Delimited (layout.lineBreak lastLevel ++ '\x7d' :: rest) :=
        delimited_lineBreak layout lastLevel rest (by decide)
      have hskip : skipSpace ('\x7d' :: rest) = '\x7d' :: rest := rfl
      rw [memberTexts, List.intersperse_singleton, List.flatten_singleton, List.cons_append,
        readMembers]
      simp only [hread, hmember _ hdelimited, skipSpace_lineBreak, hskip]
    | cons following members =>
      obtain ⟨key', value'⟩ := following
      have hrest := ih (List.cons_ne_nil _ _) (Nat.le_of_succ_le_succ hsteps)
      rw [memberTexts_cons] at hrest ⊢
      obtain ⟨text', htext'⟩ := exists_separated '"'
        (memberTail layout level key' value') (',' :: layout.lineBreak level)
        (memberTexts layout level members) (layout.lineBreak lastLevel ++ '\x7d' :: rest)
      rw [htext'] at hrest
      have hcomma : ∀ text, skipSpace (',' :: text) = ',' :: text := fun _ => rfl
      have hquote : skipSpace ('"' :: text') = '"' :: text' := rfl
      have hdelimited : ∀ text, Delimited (',' :: text) := fun text => delimited_cons (by decide)
      rw [List.intersperse_cons_cons, List.flatten_cons, List.flatten_cons, List.append_assoc,
        List.append_assoc, htext', List.cons_append, List.cons_append, readMembers]
      simp only [hread, hmember _ (hdelimited _), hcomma, skipSpace_lineBreak, hquote]
      exact hrest

/-- A written object is an opening brace, and its members are read behind that. -/
lemma exists_readObject {member : σ → String → List Char → Scan σ} {level : Nat}
    {members : List (String × Json)} {state last : σ}
    (htakes : TakesMembers layout (level + 1) member state members last) (rest : List Char) :
    ∃ text, valueText layout level (.object members) ++ rest = '\x7b' :: text ∧
      readObject readString member state text = .ok (last, rest) := by
  cases members with
  | nil =>
    cases htakes
    exact ⟨'\x7d' :: rest, rfl, rfl⟩
  | cons first members =>
    obtain ⟨key, value⟩ := first
    obtain ⟨text', htext'⟩ := exists_separated '"'
      (memberTail layout (level + 1) key value) (',' :: layout.lineBreak (level + 1))
      (memberTexts layout (level + 1) members) (layout.lineBreak level ++ '\x7d' :: rest)
    refine ⟨layout.lineBreak (level + 1) ++ '"' :: text', ?_, ?_⟩
    · rw [← htext', valueText, memberTexts_cons, enclose, if_neg (by simp)]
      simp
    · have hlength := length_le_separated (',' :: layout.lineBreak (level + 1))
        (memberTexts layout (level + 1) ((key, value) :: members))
        (layout.lineBreak level ++ '\x7d' :: rest) (List.cons_ne_nil _ _) (by simp)
      rw [length_memberTexts] at hlength
      have hmembers := readMembers_memberTexts htakes (List.cons_ne_nil _ _) hlength level rest
      rw [memberTexts_cons, htext'] at hmembers
      have hquote : skipSpace ('"' :: text') = '"' :: text' := rfl
      rw [readObject, skipSpace_lineBreak, hquote]
      exact hmembers

/-! ### Decoders -/

namespace Decoder.Reads

variable {decoder : Decoder α} {value : Json} {result : α}

lemma map (h : decoder.Reads layout value result) (f : α → β) :
    (decoder.map f).Reads layout value (f result) := by
  intro depth level space rest hdepth hspace hrest
  rw [Decoder.map, h depth level space rest hdepth hspace hrest]
  rfl

lemma string (layout : Layout) (text : String) :
    Decoder.string.Reads layout (.string text) text := by
  intro depth level space rest _ hspace _
  have htext : valueText layout level (.string text) ++ rest =
      '"' :: (text.toList.flatMap escapeChar ++ '"' :: rest) := by
    simp [valueText, quote]
  rw [htext, Decoder.string, skipSpace_append hspace, skipSpace_cons (by decide)]
  exact readString_quote text rest

lemma natural (layout : Layout) {n : Nat} (hn : n < Numeral.wordLimit) :
    Decoder.natural.Reads layout (ofNat n) n := by
  intro depth level space rest _ hspace hrest
  have hnumber := readNumber_integerText (exact_ofNat hn).1 (exact_ofNat hn).2 hrest
  obtain ⟨c, text, htext, hc⟩ := exists_integerText n
  rw [htext, List.cons_append] at hnumber
  rw [ofNat, valueText, numberText, htext, List.cons_append, Decoder.natural,
    skipSpace_append hspace, skipSpace_cons (not_special_of_isDigit hc).1]
  simp only [hc, if_true, hnumber]

lemma optional (h : decoder.Reads layout value result) (hexact : value.Exact)
    (hnull : value ≠ .null) : (Decoder.optional decoder).Reads layout value (some result) := by
  intro depth level space rest hdepth hspace hrest
  obtain ⟨c, text, htext, hc, -, hletter⟩ := exists_valueText layout level hexact
  have hread := h.map some depth level [] rest hdepth (by simp) hrest
  rw [htext, List.nil_append, List.cons_append] at hread
  rw [htext, List.cons_append, Decoder.optional, skipSpace_append hspace, skipSpace_cons hc]
  split
  next heq => exact absurd (List.cons.inj heq).1 (hletter.resolve_right hnull)
  next => exact hread

/-- The items of an array are read one bracket deeper. -/
lemma items {values : List Json} {results : List α}
    (h : List.Forall₂ (decoder.Reads layout) values results) {depth : Nat}
    (hdepth : itemsNesting values < depth) (level : Nat) :
    List.Forall₂ (fun value result => ∀ rest, Delimited rest →
      decoder depth (valueText layout level value ++ rest) = .ok (result, rest))
      values results := by
  induction h with
  | nil => exact .nil
  | cons hvalue _ ih =>
    rw [itemsNesting] at hdepth
    exact .cons (fun rest => hvalue depth level [] rest (by omega) (by simp)) (ih (by omega))

lemma list {values : List Json} {results : List α}
    (h : List.Forall₂ (decoder.Reads layout) values results) (hexact : ItemsExact values) :
    (Decoder.list decoder).Reads layout (.array values) results := by
  intro depth level space rest hdepth hspace hrest
  rw [nesting] at hdepth
  obtain ⟨text, htext, hread⟩ :=
    exists_readArray (items h (Nat.lt_sub_of_add_lt hdepth) (level + 1)) hexact rest
  rw [htext, Decoder.list, skipSpace_append hspace, skipSpace_cons (by decide)]
  simp only [if_neg (show ¬ depth ≤ 1 by omega), hread]

/-- A list is read from the values of its elements. -/
lemma list_map {f : α → Json} (h : ∀ a, decoder.Reads layout (f a) a) (hexact : ∀ a, (f a).Exact)
    (results : List α) : (Decoder.list decoder).Reads layout (.array (results.map f)) results := by
  refine .list ?_ (itemsExact_map hexact results)
  rw [List.forall₂_map_left_iff, List.forall₂_same]
  exact fun a _ => h a

lemma choice {names : List (String × α)} {name : String} (h : names.lookup name = some result) :
    (Decoder.choice names).Reads layout (.string name) result := by
  intro depth level space rest hdepth hspace hrest
  have hread := Decoder.Reads.string layout name depth level [] rest hdepth (by simp) hrest
  have htext : valueText layout level (.string name) ++ rest =
      '"' :: (name.toList.flatMap escapeChar ++ '"' :: rest) := by
    simp [valueText, quote]
  rw [htext, List.nil_append] at hread
  rw [htext, Decoder.choice, skipSpace_append hspace, skipSpace_cons (by decide)]
  simp only [hread, h]

/-- What a decoder reads of a text that holds nothing else. -/
lemma decode (h : decoder.Reads layout value result) (hnesting : value.nesting < depthLimit) :
    Json.decode decoder (value.print layout) = .ok result := by
  have hread := h depthLimit 0 [] [] hnesting (by simp) delimited_nil
  rw [List.nil_append, List.append_nil] at hread
  have hnil : skipSpace [] = [] := rfl
  simp only [Json.decode, readWholeText, print, String.toList_ofList, hread, hnil]

end Decoder.Reads

/-! ### Values of any kind -/

/-- How `readValue` reads the members of an object. -/
def appendMember (depth : Nat) (members : List (String × Json)) (key : String)
    (text : List Char) : Scan (List (String × Json)) :=
  match readColon text with
  | .error fault => .error fault
  | .ok ((), text) =>
    (readValue depth text).map fun (value, rest) => (members ++ [(key, value)], rest)

lemma takesMembers_appendMember {members : List (String × Json)}
    (hreads : ∀ member ∈ members, Decoder.Reads layout readValue member.2 member.2)
    {depth : Nat} (hdepth : membersNesting members < depth) (level : Nat)
    (done : List (String × Json)) :
    TakesMembers layout level (appendMember depth) done members (done ++ members) := by
  induction members generalizing done with
  | nil =>
    rw [List.append_nil]
    exact .nil done
  | cons first members ih =>
    obtain ⟨key, value⟩ := first
    have hvalue : Decoder.Reads layout readValue value value := hreads _ List.mem_cons_self
    rw [membersNesting] at hdepth
    have hrest := ih (fun member hmember => hreads member (List.mem_cons_of_mem _ hmember))
      (by omega) (done ++ [(key, value)])
    rw [List.append_assoc, List.singleton_append] at hrest
    refine .cons (fun rest hrest => ?_) hrest
    obtain ⟨space, hspace, hcolon⟩ :=
      readColon_colon layout (valueText layout level value ++ rest)
    simp only [appendMember, hcolon, hvalue depth level space rest (by omega) hspace hrest]
    rfl

mutual

/-- A written value is read as the same value. -/
theorem reads_readValue (layout : Layout) : ∀ {value : Json}, value.Exact →
    Decoder.Reads layout readValue value value
  | .null, _ => by
    intro depth level space rest hdepth hspace hrest
    obtain ⟨depth, rfl⟩ := Nat.exists_eq_add_one_of_ne_zero (Nat.ne_of_gt hdepth)
    rw [readValue, skipSpace_append hspace]
    rfl
  | .bool value, _ => by
    intro depth level space rest hdepth hspace hrest
    obtain ⟨depth, rfl⟩ := Nat.exists_eq_add_one_of_ne_zero (Nat.ne_of_gt hdepth)
    rw [readValue, skipSpace_append hspace]
    cases value <;> rfl
  | .number (.integer n), h => by
    intro depth level space rest hdepth hspace hrest
    obtain ⟨depth, rfl⟩ := Nat.exists_eq_add_one_of_ne_zero (Nat.ne_of_gt hdepth)
    obtain ⟨c, digits, htext, hc⟩ := exists_integerText n
    have hnumber := readNumber_integerText h.1 h.2 hrest
    rw [htext, List.cons_append] at hnumber
    rw [valueText, numberText, htext, List.cons_append]
    exact readValue_of_readNumber hspace hc hnumber depth
  | .string text, _ => by
    intro depth level space rest hdepth hspace hrest
    obtain ⟨depth, rfl⟩ := Nat.exists_eq_add_one_of_ne_zero (Nat.ne_of_gt hdepth)
    have htext : valueText layout level (.string text) ++ rest =
        '"' :: (text.toList.flatMap escapeChar ++ '"' :: rest) := by
      simp [valueText, quote]
    rw [readValue, skipSpace_append hspace, htext, skipSpace_cons (by decide)]
    simp only [if_true, readString_quote]
    rfl
  | .array items, h => by
    intro depth level space rest hdepth hspace hrest
    rw [nesting] at hdepth
    obtain ⟨depth, rfl⟩ := Nat.exists_eq_add_one_of_ne_zero (Nat.ne_of_gt
      (Nat.zero_lt_of_lt hdepth))
    obtain ⟨text, htext, hread⟩ := exists_readArray
      (Decoder.Reads.items (reads_items layout h) (Nat.lt_of_add_lt_add_right hdepth) (level + 1))
      h rest
    rw [readValue, skipSpace_append hspace, htext, skipSpace_cons (by decide)]
    have hne : depth ≠ 0 := by omega
    simp [hne, hread, Except.map]
  | .object members, h => by
    intro depth level space rest hdepth hspace hrest
    rw [nesting] at hdepth
    obtain ⟨depth, rfl⟩ := Nat.exists_eq_add_one_of_ne_zero (Nat.ne_of_gt
      (Nat.zero_lt_of_lt hdepth))
    obtain ⟨text, htext, hread⟩ := exists_readObject
      (takesMembers_appendMember (reads_members layout h) (Nat.lt_of_add_lt_add_right hdepth)
        (level + 1) []) rest
    rw [readValue, skipSpace_append hspace, htext, skipSpace_cons (by decide)]
    have hobject : (readObject readString (appendMember depth) [] text).map
        (fun (members, rest) => (Json.object members, rest)) = .ok (.object members, rest) := by
      rw [hread]
      rfl
    have hne : depth ≠ 0 := by omega
    simp only [if_neg hne, Char.reduceEq, if_false, if_true]
    exact hobject

theorem reads_items (layout : Layout) : ∀ {items : List Json}, ItemsExact items →
    List.Forall₂ (Decoder.Reads layout readValue) items items
  | [], _ => .nil
  | _ :: _, h => .cons (reads_readValue layout h.1) (reads_items layout h.2)

theorem reads_members (layout : Layout) : ∀ {members : List (String × Json)},
    MembersExact members → ∀ member ∈ members, Decoder.Reads layout readValue member.2 member.2
  | [], _ => nofun
  | (_, _) :: _, h =>
    List.forall_mem_cons.2 ⟨reads_readValue layout h.1, reads_members layout h.2⟩

end

lemma Decoder.Reads.ofValue {f : Json → Option α} {value : Json} {result : α}
    (h : f value = some result) (hexact : value.Exact) :
    (Decoder.ofValue f).Reads layout value result := by
  intro depth level space rest hdepth hspace hrest
  simp only [Decoder.ofValue, reads_readValue layout hexact depth level space rest hdepth hspace
    hrest, h]

/-! ### Records -/

namespace RecordReader

/-- Members that take a draft of a record to another draft, each filling a field that was not
filled before. -/
inductive Fills (reader : RecordReader σ α) (layout : Layout) :
    σ → List (String × Json) → σ → Prop
  | nil (draft : σ) : reader.Fills layout draft [] draft
  | cons {draft next last : σ} {key : String} {value : Json} {members : List (String × Json)}
      (hkey : reader.fields.contains key = true) (hnew : reader.isFilled draft key = false)
      (hvalue : (reader.fill draft key).Reads layout value next)
      (hrest : reader.Fills layout next members last) :
      reader.Fills layout draft ((key, value) :: members) last

namespace Fills

variable {reader : RecordReader σ α} {draft next last : σ}
variable {members members' : List (String × Json)}

/-- A member fills its field.  `set` gives the draft with that field as it is set. -/
lemma single (reader : RecordReader σ α) {decoder : Decoder β} (key : String) {value : Json}
    {result : β} (set : Option β → σ) (hkey : reader.fields.contains key = true)
    (hnew : reader.isFilled (set none) key = false)
    (hfill : reader.fill (set none) key = decoder.map fun value => set (some value))
    (hread : decoder.Reads layout value result) :
    reader.Fills layout (set none) [(key, value)] (set (some result)) :=
  .cons hkey hnew (hfill ▸ hread.map fun value => set (some value)) (.nil _)

lemma append (h : reader.Fills layout draft members next)
    (h' : reader.Fills layout next members' last) :
    reader.Fills layout draft (members ++ members') last := by
  induction h with
  | nil => exact h'
  | cons hkey hnew hvalue _ ih => exact .cons hkey hnew hvalue (ih h')

lemma takesMembers (h : reader.Fills layout draft members last) {depth : Nat}
    (hdepth : membersNesting members < depth) (level : Nat) :
    TakesMembers layout level (reader.member depth) draft members last := by
  induction h with
  | nil => exact .nil _
  | @cons draft next last key value members hkey hnew hvalue _ ih =>
    rw [membersNesting] at hdepth
    refine .cons (fun rest hrest => ?_) (ih (by omega))
    obtain ⟨space, hspace, hcolon⟩ :=
      readColon_colon layout (valueText layout level value ++ rest)
    simp only [member, hkey, hnew, if_true, Bool.false_eq_true, if_false, hcolon,
      hvalue depth level space rest (by omega) hspace hrest]

/-- A record is read from an object whose members fill it. -/
theorem reads (h : reader.Fills layout reader.blank members draft) {record : α}
    (hcomplete : reader.complete draft = some record) :
    reader.decoder.Reads layout (.object members) record := by
  intro depth level space rest hdepth hspace hrest
  rw [nesting] at hdepth
  obtain ⟨text, htext, hread⟩ :=
    exists_readObject (h.takesMembers (Nat.lt_sub_of_add_lt hdepth) (level + 1)) rest
  rw [htext, decoder, skipSpace_append hspace, skipSpace_cons (by decide)]
  simp only [if_neg (show ¬ depth ≤ 1 by omega), hread, finish, hcomplete]

end Fills

end RecordReader

end WordFields.Json
