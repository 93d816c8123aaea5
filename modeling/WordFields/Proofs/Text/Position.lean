import Mathlib.Tactic.Lemma
import WordFields.Text.Search

/-!
# Byte positions

A position between two characters of a text is the length in bytes of what is before it.  Cutting a
text at such positions gives the part between them (`slice_append`).
-/

namespace WordFields.Text

@[simp] lemma byteLength_nil : byteLength [] = 0 :=
  rfl

@[simp] lemma byteLength_cons (c : Char) (text : List Char) :
    byteLength (c :: text) = c.utf8Size + byteLength text :=
  rfl

@[simp] lemma byteLength_append (text rest : List Char) :
    byteLength (text ++ rest) = byteLength text + byteLength rest := by
  induction text with
  | nil => exact (Nat.zero_add _).symm
  | cons c text ih => rw [List.cons_append, byteLength, byteLength, ih, Nat.add_assoc]

lemma byteLength_pos {text : List Char} (h : text ≠ []) : 0 < byteLength text := by
  cases text with
  | nil => exact absurd rfl h
  | cons c text => exact Nat.add_pos_left c.utf8Size_pos _

lemma dropBytes_append (front back : List Char) :
    dropBytes (byteLength front) (front ++ back) = back := by
  induction front with
  | nil => cases back <;> rfl
  | cons c front ih =>
    have hpos := c.utf8Size_pos
    rw [List.cons_append, dropBytes, byteLength_cons, if_neg (by omega), Nat.add_sub_cancel_left, ih]

lemma takeBytes_append (body back : List Char) :
    takeBytes (byteLength body) (body ++ back) = body := by
  induction body with
  | nil => cases back <;> rfl
  | cons c body ih =>
    have hpos := c.utf8Size_pos
    rw [List.cons_append, takeBytes, byteLength_cons, if_neg (by omega), Nat.add_sub_cancel_left, ih]

/-- The part of a text between the positions at its two ends. -/
lemma slice_append (front body back : List Char) :
    slice (byteLength front) (byteLength front + byteLength body) (front ++ (body ++ back)) =
      body := by
  rw [slice, dropBytes_append, Nat.add_sub_cancel_left, takeBytes_append]

end WordFields.Text
