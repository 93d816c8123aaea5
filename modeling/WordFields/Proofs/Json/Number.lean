import Mathlib.Algebra.Ring.Int.Defs
import Mathlib.Data.List.Basic
import Mathlib.Tactic.Ring
import WordFields.Json.Number
import WordFields.Json.Printer
import WordFields.Proofs.Json.Scanning

/-!
# Scanning numbers

An integer literal is read whole, with any text behind it that does not continue a number
(`readNumber_literal`).  Of its digits the first ones count, as many as have 64 bits
(`leading_takeWord`), so a literal of 64 bits is kept as it is (`integral_of_fitsWord`), and a
written integer is read back (`readNumber_integerText`).
-/

namespace WordFields.Json

open Numeral

/-! ## Parts of a literal -/

/-- Whether a text does not continue a number: its first character is no digit, no point and no
mark of an exponent. -/
def EndsNumber (text : List Char) : Prop :=
  ∀ c ∈ text.head?, Numeral.isDigit c = false ∧ c ∉ ['.', 'e', 'E']

/-- What follows a value does not continue a number. -/
lemma Delimited.endsNumber {text : List Char} (h : Delimited text) : EndsNumber text := by
  have hall : ∀ c ∈ [',', ']', '\x7d', '\n'],
      Numeral.isDigit c = false ∧ c ∉ ['.', 'e', 'E'] := by
    simp [Numeral.isDigit]
  exact fun c hc => hall c (h c hc)

lemma isDigit_of_mem_naturalText {n : Nat} {c : Char} (h : c ∈ naturalText n) :
    Numeral.isDigit c = true := by
  have hdigit : c.isDigit = true := Nat.isDigit_of_mem_toDigits (by omega) (by omega) h
  simpa [Char.isDigit, Numeral.isDigit, Char.le_def] using hdigit

lemma exists_naturalText (n : Nat) :
    ∃ c digits, naturalText n = c :: digits ∧ Numeral.isDigit c = true := by
  obtain ⟨c, digits, htext⟩ := List.exists_cons_of_ne_nil (Nat.toDigits_ne_nil (b := 10) (n := n))
  exact ⟨c, digits, htext, isDigit_of_mem_naturalText (htext ▸ List.mem_cons_self)⟩

lemma EndsNumber.takeWhile_isDigit {text : List Char} (h : EndsNumber text) :
    text.takeWhile Numeral.isDigit = [] ∧ text.dropWhile Numeral.isDigit = text := by
  cases text with
  | nil => exact ⟨rfl, rfl⟩
  | cons c text => simp [(h c rfl).1]

lemma cutDigits_naturalText (n : Nat) {rest : List Char} (hrest : EndsNumber rest) :
    cutDigits (naturalText n ++ rest) = (naturalText n, rest) := by
  have hdigits : ∀ c ∈ naturalText n, Numeral.isDigit c = true := fun _ =>
    isDigit_of_mem_naturalText
  rw [cutDigits, List.takeWhile_append_of_pos hdigits, List.dropWhile_append_of_pos hdigits,
    hrest.takeWhile_isDigit.1, hrest.takeWhile_isDigit.2, List.append_nil]

/-- No positive number is written with a zero in front. -/
lemma head?_naturalText {n : Nat} (hn : 0 < n) : (naturalText n).head? ≠ some '0' := by
  induction n using Nat.strongRecOn with
  | ind n ih =>
    by_cases hsmall : n < 10
    · have hdigit : ∀ n < 10, 0 < n → ([n.digitChar] : List Char).head? ≠ some '0' := by decide
      rw [naturalText, Nat.toDigits_of_lt_base hsmall]
      exact hdigit n hsmall hn
    · have hquotient := ih (n / 10) (by omega) (by omega)
      rw [naturalText, Nat.toDigits_of_base_le (by omega) (by omega)]
      rwa [List.head?_append_of_ne_nil _ Nat.toDigits_ne_nil]

lemma readWhole_naturalText (n : Nat) {rest : List Char} (hrest : EndsNumber rest) :
    readWhole (naturalText n ++ rest) = .ok (naturalText n, rest) := by
  obtain ⟨c, digits, htext, hc⟩ := exists_naturalText n
  have hcut := cutDigits_naturalText n hrest
  by_cases hzero : c = '0'
  · have hn : n = 0 := by
      by_contra hn
      exact head?_naturalText (Nat.pos_of_ne_zero hn) (htext ▸ hzero ▸ rfl)
    subst hn
    cases rest with
    | nil => rfl
    | cons d rest =>
      change (if Numeral.isDigit d then _ else _) = _
      rw [(hrest d rfl).1]
      rfl
  · rw [htext, List.cons_append] at hcut ⊢
    simp [readWhole, hc, hzero, hcut]

lemma ofDigits_naturalText (n : Nat) : ofDigits (naturalText n) = n := by
  have hdigits : Nat.ofDigitChars 10 (Nat.toDigits 10 n) 0 = n := Nat.ofDigitChars_ten_toDigits
  rw [Nat.ofDigitChars_eq_foldl] at hdigits
  simpa only [ofDigits, naturalText, Nat.mul_comm] using hdigits

lemma EndsNumber.readFraction {rest : List Char} (hrest : EndsNumber rest) :
    Json.readFraction rest = .ok (none, rest) := by
  unfold Json.readFraction
  split
  next => exact absurd (hrest '.' rfl).2 (by decide)
  next => rfl

lemma EndsNumber.readExponent {rest : List Char} (hrest : EndsNumber rest) (isZero : Bool) :
    Json.readExponent isZero rest = .ok (none, rest) := by
  cases rest with
  | nil => rfl
  | cons c rest =>
    have hc : ¬ (c = 'e' ∨ c = 'E') := by
      rintro (rfl | rfl) <;> exact (hrest _ rfl).2 (by decide)
    rw [Json.readExponent, if_neg hc]

/-! ## The digits that count -/

lemma ofDigits_cons (c : Char) (digits : List Char) :
    ofDigits (c :: digits) = (c.toNat - '0'.toNat) * 10 ^ digits.length + ofDigits digits := by
  have hfold (value : Nat) :
      digits.foldl (fun value c => value * 10 + (c.toNat - '0'.toNat)) value =
        value * 10 ^ digits.length + ofDigits digits := by
    induction digits generalizing value with
    | nil => simp [ofDigits]
    | cons d digits ih =>
      rw [ofDigits, List.foldl_cons, List.foldl_cons, ih, ih, List.length_cons, pow_succ]
      ring
  rw [ofDigits, List.foldl_cons, hfold, Nat.zero_mul, Nat.zero_add]

lemma ofDigits_append (front back : List Char) :
    ofDigits (front ++ back) = ofDigits front * 10 ^ back.length + ofDigits back := by
  induction front with
  | nil => simp [ofDigits]
  | cons c front ih =>
    rw [List.cons_append, ofDigits_cons, ofDigits_cons, ih, List.length_append, pow_add]
    ring

lemma ofDigits_lt {digits : List Char} (h : ∀ c ∈ digits, Numeral.isDigit c = true) :
    ofDigits digits < 10 ^ digits.length := by
  induction digits with
  | nil => exact Nat.one_pos
  | cons c digits ih =>
    have htail := ih fun d hd => h d (List.mem_cons_of_mem c hd)
    have hc : c.toNat - '0'.toNat ≤ 9 := by
      have hdigit := h c List.mem_cons_self
      simp only [Numeral.isDigit, Char.le_def, UInt32.le_iff_toNat_le, Bool.and_eq_true,
        decide_eq_true_eq] at hdigit
      have hnine : c.toNat ≤ 57 := hdigit.2
      change c.toNat - 48 ≤ 9
      omega
    have hle := Nat.mul_le_mul_right (10 ^ digits.length) hc
    rw [ofDigits_cons, List.length_cons, pow_succ]
    omega

/-- The first digits of a number, as many as make a number of 64 bits, and how many are left. -/
structure Leading (size kept left : Nat) : Prop where
  kept_eq : kept = size / 10 ^ left
  kept_lt : kept < wordLimit
  le_of_lt : ∀ k < left, wordLimit ≤ size / 10 ^ k

namespace Leading

variable {size kept kept' left left' : Nat}

lemma unique (h : Leading size kept left) (h' : Leading size kept' left') :
    kept = kept' ∧ left = left' := by
  have hleft : left = left' := by
    rcases Nat.lt_trichotomy left left' with hlt | heq | hlt
    · exact absurd (h'.le_of_lt left hlt) (h.kept_eq ▸ h.kept_lt).not_ge
    · exact heq
    · exact absurd (h.le_of_lt left' hlt) (h'.kept_eq ▸ h'.kept_lt).not_ge
  exact ⟨by rw [h.kept_eq, h'.kept_eq, hleft], hleft⟩

lemma of_lt (h : size < wordLimit) : Leading size size 0 :=
  ⟨(Nat.div_one size).symm, h, fun _ hk => absurd hk (Nat.not_lt_zero _)⟩

end Leading

/-- The digits fall into those that count and those that do not, the first of which would make the
number too large. -/
lemma exists_takeWord (digits : List Char) {value : Nat} (hvalue : value < wordLimit) :
    ∃ taken excess kept, digits = taken ++ excess ∧ takeWord value digits = (kept, excess) ∧
      kept = value * 10 ^ taken.length + ofDigits taken ∧ kept < wordLimit ∧
        ∀ c tail, excess = c :: tail → wordLimit ≤ kept * 10 + (c.toNat - '0'.toNat) := by
  induction digits generalizing value with
  | nil => exact ⟨[], [], value, rfl, rfl, by simp [ofDigits], hvalue, nofun⟩
  | cons c digits ih =>
    by_cases hnext : value * 10 + (c.toNat - '0'.toNat) < wordLimit
    · obtain ⟨taken, excess, kept, rfl, htake, hkept, hlt, hover⟩ := ih hnext
      refine ⟨c :: taken, excess, kept, rfl, ?_, ?_, hlt, hover⟩
      · rw [takeWord]
        simp only [if_pos hnext, htake]
      · rw [hkept, ofDigits_cons, List.length_cons, pow_succ]
        ring
    · refine ⟨[], c :: digits, value, rfl, ?_, by simp [ofDigits], hvalue, ?_⟩
      · rw [takeWord]
        simp only [if_neg hnext]
      · rintro _ _ ⟨⟩
        exact not_lt.1 hnext

/-- The digits of a number that count are its first ones. -/
theorem leading_takeWord (size : Nat) : Leading size (takeWord 0 (naturalText size)).1
    (takeWord 0 (naturalText size)).2.length := by
  obtain ⟨taken, excess, kept, htext, htake, hkept, hlt, hover⟩ :=
    exists_takeWord (naturalText size) (show 0 < wordLimit by decide)
  rw [Nat.zero_mul, Nat.zero_add] at hkept
  have hexcess : ∀ c ∈ excess, Numeral.isDigit c = true := fun c hc =>
    isDigit_of_mem_naturalText (htext ▸ List.mem_append_right taken hc)
  have hsize : size = kept * 10 ^ excess.length + ofDigits excess := by
    rw [hkept, ← ofDigits_append, ← htext, ofDigits_naturalText]
  rw [htake]
  refine ⟨?_, hlt, fun k (hk : k < excess.length) => ?_⟩
  · rw [hsize, Nat.mul_comm, Nat.mul_add_div (Nat.pow_pos (by omega)),
      Nat.div_eq_of_lt (ofDigits_lt hexcess), Nat.add_zero]
  · obtain ⟨c, tail, rfl⟩ := List.exists_cons_of_ne_nil
      (List.ne_nil_of_length_pos (Nat.zero_lt_of_lt hk))
    have hle : kept * 10 + (c.toNat - '0'.toNat) ≤ size / 10 ^ tail.length := by
      rw [Nat.le_div_iff_mul_le (Nat.pow_pos (by omega)), hsize, ofDigits_cons, List.length_cons,
        pow_succ, Nat.add_mul]
      have hassoc : kept * 10 * 10 ^ tail.length = kept * (10 ^ tail.length * 10) := by ring
      omega
    have hpower : 10 ^ k ≤ 10 ^ tail.length :=
      Nat.pow_le_pow_right (by omega) (Nat.le_of_lt_succ hk)
    exact (hover c tail rfl).trans (hle.trans (Nat.div_le_div_left hpower (Nat.pow_pos (by omega))))

lemma takeWord_of_lt {size : Nat} (h : size < wordLimit) :
    takeWord 0 (naturalText size) = (size, []) := by
  obtain ⟨hkept, hexcess⟩ := (leading_takeWord size).unique (.of_lt h)
  exact Prod.ext hkept (List.length_eq_zero_iff.1 hexcess)

/-! ## The number of a literal -/

/-- Whether a literal has 64 bits, and so is kept exactly. -/
def FitsWord (negative : Bool) (size : Nat) : Prop :=
  if negative then size ≤ 2 ^ 63 else size < 2 ^ 64

instance (negative : Bool) (size : Nat) : Decidable (FitsWord negative size) :=
  inferInstanceAs (Decidable (if negative then _ else _))

lemma FitsWord.lt {negative : Bool} {size : Nat} (h : FitsWord negative size) :
    size < wordLimit := by
  change size < 2 ^ 64
  rw [FitsWord] at h
  split_ifs at h <;> omega

/-- A literal of 64 bits is kept, but for a zero behind a minus sign. -/
lemma integral_of_fitsWord {negative : Bool} {size : Nat} (h : FitsWord negative size)
    (hsign : negative = true → 0 < size) :
    integral negative (naturalText size) = .integer (if negative then -size else size) := by
  rw [integral, takeWord_of_lt h.lt]
  cases negative with
  | true =>
    have hsize : ¬ (size = 0 ∨ Nat.pow 2 63 < size) := not_or.2 ⟨(hsign rfl).ne', not_lt.2 h⟩
    simp [hsize]
  | false => rfl

lemma integral_minus {size : Nat} (hlt : size < wordLimit) (h : ¬ FitsWord true size) :
    integral true (naturalText size) = .double ((Double.ofInt size).withSign true) := by
  have hsize : size = 0 ∨ Nat.pow 2 63 < size := .inr (not_le.1 h)
  simp [integral, takeWord_of_lt hlt, hsize]

/-- A longer literal is computed from the digits that count and the number of the others. -/
lemma integral_of_le (negative : Bool) {size : Nat} (h : wordLimit ≤ size) :
    ∃ kept left : Nat, Leading size kept left ∧
      integral negative (naturalText size) = .double (ofParts negative kept left) := by
  have hleading := leading_takeWord size
  rcases htake : takeWord 0 (naturalText size) with ⟨kept, excess⟩
  rw [htake] at hleading
  refine ⟨kept, excess.length, hleading, ?_⟩
  cases excess with
  | nil =>
    obtain rfl : kept = size := by simpa using hleading.kept_eq
    exact absurd hleading.kept_lt h.not_gt
  | cons c tail =>
    rw [integral, htake]

/-- An integer as JSON writes it: an optional minus sign and digits, no zero in front of others. -/
def literal (negative : Bool) (size : Nat) : List Char :=
  if negative then '-' :: naturalText size else naturalText size

lemma literal_eq_integerText (n : Int) : literal (n < 0) n.natAbs = integerText n := by
  simp only [literal, integerText, decide_eq_true_eq]

/-- A literal is read whole unless its number is infinite. -/
theorem readNumber_literal {negative : Bool} {size : Nat}
    (hfinite : ∀ sign, integral negative (naturalText size) ≠ .double (.infinity sign))
    {rest : List Char} (hrest : EndsNumber rest) :
    readNumber (literal negative size ++ rest) =
      .ok (integral negative (naturalText size), rest) := by
  have hwhole := readWhole_naturalText size hrest
  cases negative with
  | true =>
    simp only [literal, if_true, List.cons_append, readNumber, hwhole, hrest.readFraction,
      hrest.readExponent, Option.getD_none, List.append_nil, Option.isNone_none, and_self]
  | false =>
    have hsign : ∀ text, naturalText size ++ rest ≠ '-' :: text := by
      rintro text heq
      obtain ⟨c, digits, htext⟩ := exists_naturalText size
      rw [htext.1, List.cons_append, List.cons_eq_cons] at heq
      exact absurd (heq.1 ▸ htext.2) (by decide)
    rw [literal, if_neg Bool.false_ne_true, readNumber]
    · simp only [hwhole, hrest.readFraction, hrest.readExponent, Option.getD_none,
        List.append_nil, Option.isNone_none, and_self, if_true]
    · exact hsign

/-- A written integer of 64 bits is read back. -/
theorem readNumber_integerText {n : Int} (hlow : -(2 ^ 63) ≤ n) (hhigh : n < 2 ^ 64)
    {rest : List Char} (hrest : Delimited rest) :
    readNumber (integerText n ++ rest) = .ok (.integer n, rest) := by
  have hfits : FitsWord (n < 0) n.natAbs := by
    rw [FitsWord]
    split_ifs with hn <;> simp only [decide_eq_true_eq] at hn <;> omega
  have hsign : decide (n < 0) = true → 0 < n.natAbs := fun hn =>
    Int.natAbs_pos.2 (of_decide_eq_true hn).ne
  have hvalue : (if decide (n < 0) = true then -(n.natAbs : Int) else n.natAbs) = n := by
    split_ifs with hn <;> simp only [decide_eq_true_eq] at hn <;> omega
  have hintegral := integral_of_fitsWord hfits hsign
  rw [hvalue] at hintegral
  rw [← literal_eq_integerText, readNumber_literal (by simp [hintegral]) hrest.endsNumber,
    hintegral]

end WordFields.Json
