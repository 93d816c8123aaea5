import Mathlib.Algebra.Ring.Int.Defs
import Mathlib.Data.List.Basic
import WordFields.Json.Printer
import WordFields.Json.Scanner
import WordFields.Proofs.Text.Position

/-!
# Scanning what was written

The scanner for strings reads back what the writer of JSON puts out, with any text behind it
(`readString_quote`).  The parts of an array or object are scanned one by one; the bound on the
steps is the length of the text, which has a character for every part (`length_le_separated`).
-/

namespace WordFields.Json

open Numeral

/-- Whether a text can follow a value: it is empty, or it starts with a separator, a closing
bracket or a line break. -/
def Delimited (text : List Char) : Prop :=
  ∀ c ∈ text.head?, c ∈ [',', ']', '\x7d', '\n']

lemma delimited_nil : Delimited [] := nofun

lemma delimited_cons {c : Char} {text : List Char} (h : c ∈ [',', ']', '\x7d', '\n']) :
    Delimited (c :: text) := by
  rintro _ ⟨⟩
  exact h

/-! ## Strings -/

lemma escapeChar_ne_nil (c : Char) : escapeChar c ≠ [] := by
  unfold escapeChar
  split_ifs <;> exact List.cons_ne_nil _ _

lemma length_le_flatMap_escapeChar (value : List Char) :
    value.length ≤ (value.flatMap escapeChar).length := by
  induction value with
  | nil => exact Nat.le_refl 0
  | cons c value ih =>
    have hpos := List.length_pos_iff.2 (escapeChar_ne_nil c)
    rw [List.flatMap_cons, List.length_append, List.length_cons]
    omega

/-- The four digits of a control character's code are read as that code. -/
lemma readHex_fourDigits {n : Nat} (hn : n < 0x20) (rest : List Char) :
    readHex (fourDigits n ++ rest) = .ok (n, rest) := by
  have hlength : ∀ n < 0x20, (fourDigits n).length = 4 := by decide
  have hbytes : ∀ n < 0x20, Text.byteLength (fourDigits n) = 4 := by decide
  have hdigits : ∀ n < 0x20, readDigits? 16 0 (fourDigits n) = some n := by decide
  have hshort : ¬ Text.byteLength (fourDigits n ++ rest) < 4 := by
    rw [Text.byteLength_append, hbytes n hn]
    omega
  rw [readHex, if_neg hshort, List.take_left' (hlength n hn), List.drop_left' (hlength n hn),
    hdigits n hn]

lemma readUnicode_fourDigits {c : Char} (hc : c.toNat < 0x20) (rest : List Char) :
    readUnicode (fourDigits c.toNat ++ rest) = .ok (c, rest) := by
  have hlow : isLowSurrogate c.toNat = false := by
    simp only [isLowSurrogate, Bool.and_eq_false_iff, decide_eq_false_iff_not]
    omega
  have hhigh : isHighSurrogate c.toNat = false := by
    simp only [isHighSurrogate, Bool.and_eq_false_iff, decide_eq_false_iff_not]
    omega
  simp only [readUnicode, readHex_fourDigits hc, hlow, hhigh, Char.ofNat_toNat, Bool.false_eq_true,
    if_false]

/-- Reading an escaped character gives the character back. -/
lemma readStringFrom_escapeChar (c : Char) (steps : Nat) (text : List Char) :
    readStringFrom readUnicode (steps + 1) (escapeChar c ++ text) =
      (readStringFrom readUnicode steps text).map fun (value, rest) => (c :: value, rest) := by
  unfold escapeChar
  split_ifs with hquote hslash h h h h h hcontrol
  · subst hquote; rfl
  · subst hslash; rfl
  iterate 5 subst h; rfl
  · have hescape : readEscape readUnicode ('u' :: (fourDigits c.toNat ++ text)) = .ok (c, text) :=
      readUnicode_fourDigits hcontrol text
    rw [List.cons_append, List.cons_append, readStringFrom, if_neg (by decide), if_pos rfl, hescape]
  · rw [List.singleton_append, readStringFrom, if_neg hquote, if_neg hslash, if_neg hcontrol]

/-- The rest of a string is read from its escaped characters. -/
lemma readStringFrom_flatMap {value : List Char} {steps : Nat} (h : value.length < steps)
    (rest : List Char) :
    readStringFrom readUnicode steps (value.flatMap escapeChar ++ '"' :: rest) =
      .ok (value, rest) := by
  induction value generalizing steps with
  | nil =>
    obtain ⟨steps, rfl⟩ := Nat.exists_eq_add_one_of_ne_zero (Nat.ne_of_gt h)
    rfl
  | cons c value ih =>
    obtain ⟨steps, rfl⟩ := Nat.exists_eq_add_one_of_ne_zero (Nat.ne_of_gt (Nat.zero_lt_of_lt h))
    rw [List.flatMap_cons, List.append_assoc, readStringFrom_escapeChar,
      ih (Nat.lt_of_succ_lt_succ h)]
    rfl

/-- A written string is read back behind its opening quote. -/
theorem readString_quote (value : String) (rest : List Char) :
    readString (value.toList.flatMap escapeChar ++ '"' :: rest) = .ok (value, rest) := by
  have hlength := length_le_flatMap_escapeChar value.toList
  rw [readString, readStringFrom_flatMap (by rw [List.length_append]; omega)]
  exact congrArg (fun s => Except.ok (s, rest)) String.ofList_toList

/-! ## Arrays and objects -/

@[simp] lemma skipSpace_lineBreak (layout : Layout) (level : Nat) (text : List Char) :
    skipSpace (layout.lineBreak level ++ text) = skipSpace text := by
  cases layout with
  | compact => rfl
  | indented =>
    have hspaces : ∀ c ∈ List.replicate (2 * level) ' ', isSpace c = true := fun c hc => by
      rw [List.eq_of_mem_replicate hc]
      rfl
    change (List.replicate (2 * level) ' ' ++ text).dropWhile isSpace = _
    exact List.dropWhile_append_of_pos hspaces

/-- Parts with separators between them are at least as long as their number, if anything follows
them. -/
lemma length_le_separated (separator : List Char) (parts : List (List Char)) (rest : List Char)
    (hseparator : separator ≠ []) (hrest : rest ≠ []) :
    parts.length ≤ ((parts.intersperse separator).flatten ++ rest).length := by
  have hseparator := List.length_pos_iff.2 hseparator
  have hrest := List.length_pos_iff.2 hrest
  induction parts with
  | nil => exact Nat.zero_le _
  | cons part parts ih =>
    cases parts with
    | nil =>
      rw [List.intersperse_singleton, List.flatten_singleton, List.length_append,
        List.length_singleton]
      omega
    | cons next parts =>
      rw [List.intersperse_cons_cons]
      simp only [List.flatten_cons, List.length_append, List.length_cons] at ih ⊢
      omega

end WordFields.Json
