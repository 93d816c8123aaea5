import Mathlib.Data.Nat.Factorization.Basic
import WordFields.Data.Context
import WordFields.Proofs.Json.Decoding
import WordFields.Proofs.Number.IntegerText
import WordFields.Proofs.Number.Product
import WordFields.Proofs.Number.ScriptText

/-!
# The rendering of integers in the data

An integer literal of at most 64 bits is decoded exactly.  Of a longer one the leading digits are
rounded to a double, which is multiplied with a power of ten and rounded again; the result is an
integer as well, but not always the double nearest to the literal (`Decodes`).  Either way a
rendering below `10 ^ 21` has all digits of the decoded integer (`Decodes.render_eq`), where
JavaScript's has only as many as the double needs.  The two agree exactly if the decoded integer is
a shortest decimal of the double nearest to the literal (`Decodes.isScriptText_iff`).
-/

namespace WordFields

namespace Double

variable {s : ℕ} {e : ℤ}

/-- Which numbers of the format are natural ones. -/
lemma natural?_eq_some_iff {w : ℕ} : natural? s e = some w ↔ value s e = w := by
  have hden : 0 < Nat.pow 2 (-e).toNat := Nat.two_pow_pos _
  have hvalue : value s e = (s * Nat.pow 2 e.toNat : ℕ) / (Nat.pow 2 (-e).toNat : ℕ) := by
    obtain ⟨n, rfl | rfl⟩ := e.eq_nat_or_neg
    · simp [value]
    · simp [value, div_eq_mul_inv]
  have hcast : (0 : ℚ) < (Nat.pow 2 (-e).toNat : ℕ) := by exact_mod_cast hden
  rw [hvalue, div_eq_iff hcast.ne', natural?]
  simp only [Option.ite_none_right_eq_some, Option.some.injEq]
  constructor
  · rintro ⟨hmod, rfl⟩
    exact_mod_cast (Nat.div_mul_cancel (Nat.dvd_of_mod_eq_zero hmod)).symm
  · intro h
    have h : s * Nat.pow 2 e.toNat = w * Nat.pow 2 (-e).toNat := by exact_mod_cast h
    rw [h]
    exact ⟨Nat.mul_mod_left _ _, Nat.mul_div_cancel _ hden⟩

section Natural

variable {n : ℕ} (hn : 0 < n) (h : ofRatio false n 1 = .finite false s e)

include hn h

/-- A natural number that the format holds is kept. -/
lemma value_eq_natCast (hle : n ≤ 2 ^ 53) : value s e = n := by
  have hself : ((n : ℕ) / (1 : ℕ) : ℚ) = value n 0 := by simp [value]
  exact (value_eq_of_eq hn Nat.one_pos h hle (by decide) hself).trans (by simp [value])

/-- The number nearest to a natural number is a natural number. -/
lemma exists_value_eq_natCast : ∃ w : ℕ, value s e = w := by
  rcases le_or_gt 0 e with he | he
  · obtain ⟨k, rfl⟩ := Int.eq_ofNat_of_zero_le he
    exact ⟨s * 2 ^ k, by simp [value]⟩
  · refine ⟨n, value_eq_natCast hn h ?_⟩
    obtain ⟨-, hcanonical, herror⟩ := ofRatio_spec hn Nat.one_pos h
    have hstep : (2 : ℚ) ^ e ≤ 1 := zpow_le_one_of_nonpos₀ (by norm_num) he.le
    have hvalue : value s e < 2 ^ (52 : ℤ) :=
      hcanonical.fits.lt.trans_le (two_zpow_le.2 (by omega))
    have hlt : (n : ℚ) < 2 ^ 53 := by
      have hlow := (abs_le.1 herror).2
      rw [Nat.cast_one, div_one] at hlow
      norm_num at hvalue
      linarith
    exact_mod_cast hlt.le

lemma pos_of_ofRatio_natural : 0 < s := by
  have hone : value 1 0 ≤ ((n : ℕ) / (1 : ℕ) : ℚ) := by
    simpa [value] using Nat.one_le_iff_ne_zero.2 hn.ne'
  have hle := le_value_of_le hn Nat.one_pos h (by norm_num) (by decide) hone
  by_contra hs
  rw [Nat.eq_zero_of_not_pos hs] at hle
  norm_num [value] at hle

lemma value_le_ten_pow {k : ℕ} (hk : k ≤ 22) (hle : n ≤ 10 ^ k) : value s e ≤ 10 ^ k := by
  have hself : value (5 ^ k) k = 10 ^ k := by
    rw [value, zpow_natCast, Nat.cast_pow, Nat.cast_ofNat, ← mul_pow]
    norm_num
  have hfive : 5 ^ k ≤ 2 ^ 53 := (Nat.pow_le_pow_right (by norm_num) hk).trans (by norm_num)
  have hleast : leastExponent ≤ (k : ℤ) := by
    change (-1074 : ℤ) ≤ k
    omega
  rw [← hself]
  refine value_le_of_le hn Nat.one_pos h hfive hleast ?_
  rw [hself, Nat.cast_one, div_one]
  exact_mod_cast hle

end Natural

/-- The text of a natural number of the format; the digits end at `10 ^ 21`. -/
def naturalSizeText (w : ℕ) : List Char :=
  if w < 10 ^ 21 then naturalText w else "1e+21".toList

lemma sizeText_of_natural (hcanonical : Canonical s e) {w : ℕ} (hw : value s e = w)
    (hle : w ≤ 10 ^ 21) : sizeText s e = naturalSizeText w := by
  rcases hle.lt_or_eq with hlt | rfl
  · have hfilter : (natural? s e).filter (· < Nat.pow 10 21) = some w := by
      rw [natural?_eq_some_iff.2 hw]
      exact Option.filter_some_pos (decide_eq_true hlt)
    rw [sizeText, hfilter, naturalSizeText, if_pos hlt]
  · have hcanonical' : Canonical (5 ^ 21 * 2 ^ 4) 17 :=
      ⟨by norm_num, by decide, by decide, .inr (by norm_num)⟩
    have hvalue : value s e = value (5 ^ 21 * 2 ^ 4) 17 := by
      rw [hw]
      norm_num [value]
    obtain ⟨rfl, rfl⟩ := hcanonical.eq_of_value_eq hcanonical' hvalue
    rw [naturalSizeText, if_neg (lt_irrefl _)]
    decide +kernel

end Double

namespace Json

open Double

/-! ## What is decoded -/

/-- The size of the double nearest to a natural number, if that is a natural number. -/
def nearestSize (size : ℕ) : ℕ :=
  match Double.ofDecimal false size 0 with
  | .finite _ s e => (Double.natural? s e).getD 0
  | _ => 0

/-- What an integer literal is decoded to, and the size of the decoded integer. -/
inductive Decodes : Bool → ℕ → JsonNumber → ℕ → Prop
  /-- A literal of 64 bits is kept. -/
  | word {negative : Bool} {size : ℕ} (fits : FitsWord negative size)
      (sign : negative = true → 0 < size) :
      Decodes negative size (.integer (if negative then -size else size)) size
  | negativeZero : Decodes true 0 (.double (Double.zero true)) 0
  /-- Of a longer literal the leading digits are rounded, and so is their product with the power of
  ten that stands for the others. -/
  | long {negative : Bool} {size kept left : ℕ} (exceeds : ¬ FitsWord negative size)
      (leading : Leading size kept left) :
      Decodes negative size
        (.double (ofDecimal negative (nearestSize (nearestSize kept * 10 ^ left)) 0))
        (nearestSize (nearestSize kept * 10 ^ left))

variable {negative : Bool} {size w : ℕ} {value : JsonNumber}

section Nearest

variable (hpos : 0 < size) (hsize : size ≤ 10 ^ 21)

include hpos hsize

/-- The double nearest to a positive integer of less than 22 digits is an integer. -/
lemma exists_nearest :
    ∃ s e, ofRatio false size 1 = .finite false s e ∧ 0 < s ∧ Canonical s e ∧
      Double.value s e = nearestSize size := by
  obtain ⟨s, e, h⟩ := exists_ofRatio_eq_finite false hpos Nat.one_pos
    (natCast_div_one_lt (hsize.trans (by norm_num)))
  obtain ⟨w, hw⟩ := exists_value_eq_natCast hpos h
  have hnearest : nearestSize size = w := by
    rw [nearestSize, ofDecimal_zero, h]
    exact congrArg (Option.getD · 0) (natural?_eq_some_iff.2 hw)
  exact ⟨s, e, h, pos_of_ofRatio_natural hpos h, (ofRatio_spec hpos Nat.one_pos h).2.1,
    hw.trans (congrArg Nat.cast hnearest.symm)⟩

lemma nearestSize_pos : 0 < nearestSize size := by
  obtain ⟨s, e, -, hs, -, hvalue⟩ := exists_nearest hpos hsize
  have hlt := value_pos hs e
  rw [hvalue] at hlt
  exact_mod_cast hlt

/-- The nearest double is a number of the format. -/
lemma ofRatio_nearestSize : ofRatio false (nearestSize size) 1 = ofRatio false size 1 := by
  obtain ⟨s, e, h, hs, hcanonical, hvalue⟩ := exists_nearest hpos hsize
  rw [h]
  exact ofRatio_eq_of_value false hcanonical hs Nat.one_pos (by rw [hvalue, Nat.cast_one, div_one])

/-- What is nearest to a nearest one is that one. -/
lemma nearestSize_nearestSize : nearestSize (nearestSize size) = nearestSize size := by
  rw [nearestSize, ofDecimal_zero, ofRatio_nearestSize hpos hsize, ← ofDecimal_zero]
  rfl

lemma withSign_ofRatio (negative : Bool) :
    (ofRatio false size 1).withSign negative = ofDecimal negative (nearestSize size) 0 := by
  obtain ⟨s, e, h, -⟩ := exists_nearest hpos hsize
  rw [ofDecimal_zero, h, ofRatio_eq_finite_of_sign negative
    ((ofRatio_nearestSize hpos hsize).trans h)]
  rfl

lemma nearestSize_le_ten_pow {k : ℕ} (hk : k ≤ 22) (hle : size ≤ 10 ^ k) :
    nearestSize size ≤ 10 ^ k := by
  obtain ⟨s, e, h, -, -, hvalue⟩ := exists_nearest hpos hsize
  have hbound := value_le_ten_pow hpos h hk hle
  rw [hvalue] at hbound
  exact_mod_cast hbound

end Nearest

lemma ofInt_natCast (n : ℕ) : ofInt n = ofRatio false n 1 := by
  have hsign : ¬ (n : ℤ) < 0 := by omega
  rw [ofInt, decide_eq_false hsign, Int.natAbs_natCast]

namespace Leading

variable {kept left : ℕ} (h : Leading size kept left)

include h

lemma mul_le : kept * 10 ^ left ≤ size :=
  h.kept_eq ▸ Nat.div_mul_le_self size (10 ^ left)

lemma pos (hpos : 0 < size) : 0 < kept := by
  rw [h.kept_eq]
  rcases left with _ | left
  · rwa [pow_zero, Nat.div_one]
  · have hle := h.le_of_lt left left.lt_succ_self
    rw [pow_succ, ← Nat.div_div_eq_div_mul]
    exact Nat.div_pos ((show 10 ≤ Numeral.wordLimit by decide).trans hle) (by norm_num)

/-- The leading digits leave room for the others, rounded or not. -/
lemma bounds (hpos : 0 < size) (hsize : size < 10 ^ 21) :
    left ≤ 21 ∧ kept ≤ 10 ^ 21 ∧ nearestSize kept * 10 ^ left ≤ 10 ^ 21 := by
  have hkept := h.pos hpos
  have hlt : kept * 10 ^ left < 10 ^ 21 := h.mul_le.trans_lt hsize
  have hleft : left < 21 :=
    (Nat.pow_lt_pow_iff_right (by norm_num)).1 ((Nat.le_mul_of_pos_left _ hkept).trans_lt hlt)
  have hsplit : 10 ^ (21 - left) * 10 ^ left = 10 ^ 21 := by
    rw [← pow_add, Nat.sub_add_cancel hleft.le]
  have hle : kept ≤ 10 ^ (21 - left) := (Nat.lt_of_mul_lt_mul_right (hsplit.symm ▸ hlt)).le
  have hlimit : kept ≤ 10 ^ 21 := hle.trans (Nat.pow_le_pow_right (by norm_num) (Nat.sub_le _ _))
  have hnearest := nearestSize_le_ten_pow hkept hlimit (by omega) hle
  exact ⟨hleft.le, hlimit, hsplit ▸ Nat.mul_le_mul_right _ hnearest⟩

lemma product_pos (hpos : 0 < size) (hsize : size < 10 ^ 21) :
    0 < nearestSize kept * 10 ^ left :=
  Nat.mul_pos (nearestSize_pos (h.pos hpos) (h.bounds hpos hsize).2.1)
    (Nat.pow_pos (by norm_num))

/-- The product with a power of ten is rounded behind the leading digits, and nothing else. -/
lemma ofParts_eq (negative : Bool) (hpos : 0 < size) (hsize : size < 10 ^ 21) :
    ofParts negative kept left =
      ofDecimal negative (nearestSize (nearestSize kept * 10 ^ left)) 0 := by
  have hkept := h.pos hpos
  obtain ⟨hleft, hlimit, hproduct⟩ := h.bounds hpos hsize
  obtain ⟨s, e, hround, -, -, hvalue⟩ := exists_nearest hkept hlimit
  have hnearest := nearestSize_pos hkept hlimit
  have hscaled : scaleByTen (ofInt kept) left = ofRatio false (nearestSize kept * 10 ^ left) 1 := by
    have hpower : (left : ℤ).natAbs ≤ greatestPower := by
      rw [Int.natAbs_natCast]
      exact hleft.trans (by decide)
    rw [scaleByTen, if_pos hpower, if_pos (Int.natCast_nonneg left), Int.natAbs_natCast,
      ofInt_natCast, hround]
    exact mul_tenPower hvalue hnearest (hleft.trans (by norm_num)) (hproduct.trans (by norm_num))
  rw [ofParts, hscaled]
  exact withSign_ofRatio (h.product_pos hpos hsize) hproduct negative

end Leading

/-- Every integer literal of less than 22 digits is decoded. -/
lemma exists_decodes (negative : Bool) (hsize : size < 10 ^ 21) :
    ∃ w, Decodes negative size (integral negative (naturalText size)) w := by
  by_cases hfits : FitsWord negative size
  · rcases Nat.eq_zero_or_pos size with rfl | hpos
    · cases negative with
      | true => exact ⟨0, .negativeZero⟩
      | false => exact ⟨0, .word hfits nofun⟩
    · rw [integral_of_fitsWord hfits fun _ => hpos]
      exact ⟨size, .word hfits fun _ => hpos⟩
  · have hpos : 0 < size := Nat.pos_of_ne_zero fun hzero => hfits <| by
      subst hzero
      cases negative <;> decide
    rcases lt_or_ge size Numeral.wordLimit with hlt | hge
    · -- behind a minus sign a word may have too many bits
      obtain rfl : negative = true := by
        by_contra hsign
        rw [Bool.not_eq_true] at hsign
        exact hfits (hsign ▸ hlt)
      have hself : nearestSize (nearestSize size * 10 ^ 0) = nearestSize size := by
        rw [pow_zero, Nat.mul_one, nearestSize_nearestSize hpos hsize.le]
      rw [integral_minus hlt hfits, ofInt_natCast, withSign_ofRatio hpos hsize.le, ← hself]
      exact ⟨_, .long hfits (.of_lt hlt)⟩
    · obtain ⟨kept, left, hleading, hintegral⟩ := integral_of_le negative hge
      rw [hintegral, hleading.ofParts_eq negative hpos hsize]
      exact ⟨_, .long hfits hleading⟩

/-! ## What is written -/

/-- A shortest decimal of a double. -/
def IsShortestOf (d : Decimal) (x : Double) : Prop :=
  ∃ s e, x = .finite false s e ∧ d.IsShortest s e

lemma isShortestOf_iff {s : ℕ} {e : ℤ} (hround : ofRatio false size 1 = .finite false s e)
    {d : Decimal} : IsShortestOf d (ofDecimal false size 0) ↔ d.IsShortest s e := by
  rw [ofDecimal_zero, hround]
  refine ⟨?_, fun h => ⟨s, e, rfl, h⟩⟩
  rintro ⟨s', e', heq, h⟩
  obtain ⟨-, rfl, rfl⟩ := Double.finite.inj heq
  exact h

lemma roundsTo_natCast_iff {m k : ℕ} (hm : 0 < m) {s : ℕ} {e : ℤ} :
    Decimal.RoundsTo ⟨m, k⟩ s e ↔ ofRatio false (m * 10 ^ k) 1 = .finite false s e := by
  rw [Decimal.RoundsTo, ofDecimal_eq_ofRatio false hm]
  simp

/-- A positive number without the zeros at its end, and how many these are. -/
lemma exists_not_dvd {n : ℕ} (hn : 0 < n) : ∃ m k, ¬ 10 ∣ m ∧ m * 10 ^ k = n := by
  obtain ⟨k, m, hm, heq⟩ := Nat.exists_eq_pow_mul_and_not_dvd hn.ne' 10 (by norm_num)
  exact ⟨m, k, hm, by rw [heq, Nat.mul_comm]⟩

/-- A shortest decimal of a power of ten is that power. -/
lemma eq_one_of_isShortest {s : ℕ} {e : ℤ} (hs : 0 < s) {m k n : ℕ}
    (h : Decimal.IsShortest ⟨m, k⟩ s e) (heq : m * 10 ^ k = 10 ^ n) : m = 1 ∧ k = n := by
  have hm : 0 < m := h.rounds.digits_pos hs
  have hone : Decimal.RoundsTo ⟨1, n⟩ s e := by
    rw [roundsTo_natCast_iff Nat.one_pos, Nat.one_mul, ← heq]
    exact (roundsTo_natCast_iff hm).1 h.rounds
  have hlength : decimalLength m ≤ 1 :=
    (h.fewest _ hone).trans (show decimalLength 1 ≤ 1 by decide)
  have hlt : m < 10 ^ 1 :=
    (lt_ten_pow_decimalLength m).trans_le (Nat.pow_le_pow_right (by norm_num) hlength)
  have hle : n < k + 1 := by
    refine (Nat.pow_lt_pow_iff_right (a := 10) (by norm_num)).1 ?_
    rw [← heq, pow_succ, Nat.mul_comm]
    exact Nat.mul_lt_mul_of_pos_left hlt (Nat.pow_pos (by norm_num))
  have hge : k ≤ n := by
    refine (Nat.pow_le_pow_iff_right (a := 10) (by norm_num)).1 ?_
    exact heq ▸ Nat.le_mul_of_pos_left _ hm
  obtain rfl : k = n := by omega
  have hself : m * 10 ^ k = 1 * 10 ^ k := heq.trans (Nat.one_mul _).symm
  exact ⟨Nat.eq_of_mul_eq_mul_right (Nat.pow_pos (by norm_num)) hself, rfl⟩

namespace Decodes

/-- The decoded integer is a number of the format or a word. -/
lemma toDouble_eq (h : Decodes negative size value w) :
    value.toDouble = ofDecimal negative w 0 := by
  cases h with
  | word fits sign =>
    rw [ofDecimal_zero]
    cases negative with
    | true => simp [JsonNumber.toDouble, ofInt, sign rfl]
    | false => exact ofInt_natCast size
  | negativeZero => rfl
  | long exceeds leading => rfl

section Positive

variable (hpos : 0 < size) (hsize : size < 10 ^ 21) (h : Decodes negative size value w)

include hpos hsize h

lemma bounds : 0 < w ∧ w ≤ 10 ^ 21 := by
  cases h with
  | word fits sign => exact ⟨hpos, hsize.le⟩
  | negativeZero => exact absurd hpos (lt_irrefl 0)
  | long exceeds leading =>
    obtain ⟨-, -, hproduct⟩ := leading.bounds hpos hsize
    have hproductPos := leading.product_pos hpos hsize
    exact ⟨nearestSize_pos hproductPos hproduct,
      nearestSize_le_ten_pow hproductPos hproduct (by norm_num) hproduct⟩

/-- All digits of the decoded integer are written out. -/
theorem render_eq : render (.number value) = signText negative ++ naturalSizeText w := by
  obtain ⟨-, hle⟩ := h.bounds hpos hsize
  cases h with
  | word fits sign =>
    rw [naturalSizeText, if_pos hsize]
    change integerText _ = _
    cases negative <;> simp [integerText, signText, hpos]
  | negativeZero => exact absurd hpos (lt_irrefl 0)
  | long exceeds leading =>
    obtain ⟨-, -, hproduct⟩ := leading.bounds hpos hsize
    have hproductPos := leading.product_pos hpos hsize
    obtain ⟨s, e, hround, hs, hcanonical, hvalue⟩ := exists_nearest hproductPos hproduct
    rw [ofDecimal_zero, ofRatio_eq_finite_of_sign negative
      ((ofRatio_nearestSize hproductPos hproduct).trans hround),
      ← sizeText_of_natural hcanonical hvalue hle]
    change Double.text (.finite negative s e) = _
    cases negative <;> simp [Double.text, signText, hs.ne']

/-! ## Where JavaScript writes the same -/

/-- The text of a literal is one of JavaScript's exactly if the integer written out is the number
of a shortest decimal. -/
theorem isScriptText_iff_exists :
    IsScriptText (ofDecimal negative size 0) (render (.number value)) ↔
      ∃ m k : ℕ, IsShortestOf ⟨m, k⟩ (ofDecimal false size 0) ∧ m * 10 ^ k = w := by
  obtain ⟨s, e, hround, hs, -⟩ := exists_nearest hpos hsize.le
  simp only [isShortestOf_iff hround]
  rw [h.render_eq hpos hsize, ofDecimal_zero, ofRatio_eq_finite_of_sign negative hround,
    isScriptText_finite_iff hs]
  rcases (h.bounds hpos hsize).2.lt_or_eq with hlt | rfl
  · rw [naturalSizeText, if_pos hlt]
    constructor
    · rintro ⟨d, hd, htext⟩
      obtain ⟨k, hk, hw⟩ := (Decimal.text_eq_naturalText_iff (hd.rounds.digits_pos hs) hlt).1 htext
      obtain ⟨m, exponent⟩ := d
      obtain rfl : exponent = k := hk
      exact ⟨m, k, hd, hw⟩
    · rintro ⟨m, k, hd, hw⟩
      exact ⟨_, hd, (Decimal.text_eq_naturalText_iff (hd.rounds.digits_pos hs) hlt).2 ⟨k, rfl, hw⟩⟩
  · -- the least size with an exponent has one digit
    rw [naturalSizeText, if_neg (lt_irrefl _)]
    constructor
    · rintro ⟨d, hd, htext⟩
      obtain rfl := Decimal.text_eq_limit_iff.1 htext
      exact ⟨1, 21, hd, Nat.one_mul _⟩
    · rintro ⟨m, k, hd, hw⟩
      obtain ⟨rfl, rfl⟩ := eq_one_of_isShortest hs hd hw
      exact ⟨_, hd, Decimal.text_eq_limit_iff.2 rfl⟩

/-- Up to `2 ^ 53` every integer is a shortest decimal. -/
lemma exists_isShortest_of_le (hle : size ≤ 2 ^ 53) :
    ∃ m k : ℕ, IsShortestOf ⟨m, k⟩ (ofDecimal false size 0) ∧ m * 10 ^ k = w := by
  obtain ⟨s, e, hround, hs, -⟩ := exists_nearest hpos hsize.le
  obtain rfl : w = size := by
    cases h with
    | word fits sign => rfl
    | negativeZero => rfl
    | long exceeds leading =>
      refine absurd ?_ exceeds
      rw [FitsWord]
      split_ifs <;> omega
  obtain ⟨m, k, hzero, rfl⟩ := exists_not_dvd hpos
  have hrounds := (roundsTo_natCast_iff (Nat.pos_of_mul_pos_right hpos)).2 hround
  exact ⟨m, k, (isShortestOf_iff hround).2 (.of_le_two_pow hrounds hs hle hzero), rfl⟩

/-- Written out with at most fifteen digits and zeros behind, an integer is a shortest decimal of
the double that it is decoded to. -/
lemma exists_isShortest_of_fifteen_digits (hdouble : value.toDouble = ofDecimal negative size 0)
    {m k : ℕ} (hm : m < 10 ^ 15) (hdecimal : m * 10 ^ k = w) :
    ∃ m k : ℕ, IsShortestOf ⟨m, k⟩ (ofDecimal false size 0) ∧ m * 10 ^ k = w := by
  obtain ⟨s, e, hround, hs, hcanonical, hvalue⟩ := exists_nearest hpos hsize.le
  obtain ⟨hw, -⟩ := h.bounds hpos hsize
  rw [h.toDouble_eq, ofDecimal_zero, ofDecimal_zero,
    ofRatio_eq_finite_of_sign negative hround] at hdouble
  have hrounds : ofRatio false w 1 = .finite false s e := ofRatio_eq_finite_of_sign false hdouble
  obtain ⟨m', j, hzero, rfl⟩ := exists_not_dvd (n := m) (Nat.pos_of_mul_pos_right (hdecimal ▸ hw))
  have hdecimal' : m' * 10 ^ (j + k) = w := by
    rw [← hdecimal, pow_add, Nat.mul_assoc]
  have hle : m' ≤ m' * 10 ^ j := Nat.le_mul_of_pos_right m' (Nat.pow_pos (by norm_num))
  refine ⟨m', j + k, (isShortestOf_iff hround).2 ?_, hdecimal'⟩
  refine .of_fifteen_digits (Decimal.full_of_one_le hcanonical ?_) ?_ (hle.trans_lt hm) hzero
  · rw [hvalue]
    exact_mod_cast nearestSize_pos hpos hsize.le
  · rw [roundsTo_natCast_iff (Nat.pos_of_mul_pos_right (hdecimal' ▸ hw)), hdecimal', hrounds]

end Positive

end Decodes

/-! ## Reading and rendering -/

lemma integral_ne_infinity (hsize : size < 10 ^ 21) (sign : Bool) :
    integral negative (naturalText size) ≠ .double (.infinity sign) := by
  intro h
  obtain ⟨w, hdecodes⟩ := exists_decodes negative hsize
  have hdouble := hdecodes.toDouble_eq
  rw [h, ofDecimal_zero] at hdouble
  rcases Nat.eq_zero_or_pos size with rfl | hpos
  · cases negative <;> cases h
  · obtain ⟨hw, hle⟩ := hdecodes.bounds hpos hsize
    obtain ⟨s, e, hround, -⟩ := exists_nearest hw hle
    rw [ofRatio_eq_finite_of_sign negative hround] at hdouble
    cases hdouble

/-- A literal is read wherever a value may stand. -/
lemma readValue_literal (negative : Bool) (hsize : size < 10 ^ 21) {rest : List Char}
    (hrest : EndsNumber rest) (depth : ℕ) :
    readValue (depth + 1) (literal negative size ++ rest) =
      .ok (.number (integral negative (naturalText size)), rest) := by
  obtain ⟨c, text, htext, hc⟩ := exists_literal negative size
  have hnumber : readNumber (literal negative size ++ rest) =
      .ok (integral negative (naturalText size), rest) :=
    readNumber_literal (integral_ne_infinity hsize) hrest
  rw [htext, List.cons_append] at hnumber ⊢
  exact readValue_of_readNumber (List.forall_mem_nil (isSpace · = true)) hc hnumber depth

/-- How the value that is decoded from an integer literal is rendered, `w` being the size of the
decoded integer. -/
structure IsRendered (negative : Bool) (size : ℕ) (value : JsonNumber) (w : ℕ) : Prop where
  /-- The value as a double is the one nearest to the decoded integer. -/
  toDouble : value.toDouble = ofDecimal negative w 0
  /-- All digits of the decoded integer are written. -/
  render : 0 < size → render (.number value) = signText negative ++ naturalSizeText w
  /-- JavaScript writes the same exactly if the decoded integer is a shortest decimal of the double
  nearest to the literal. -/
  isScriptText_iff :
    IsScriptText (ofDecimal negative size 0) (Json.render (.number value)) ↔
      size = 0 ∨ ∃ m k : ℕ, IsShortestOf ⟨m, k⟩ (ofDecimal false size 0) ∧ m * 10 ^ k = w
  isScriptText_of_le : size ≤ 2 ^ 53 →
    IsScriptText (ofDecimal negative size 0) (Json.render (.number value))
  /-- The same holds of few digits with zeros behind, once decoding is rounding to the nearest. -/
  isScriptText_of_fifteen_digits : value.toDouble = ofDecimal negative size 0 →
    ∀ m k : ℕ, m < 10 ^ 15 → m * 10 ^ k = w →
      IsScriptText (ofDecimal negative size 0) (Json.render (.number value))

theorem Decodes.isRendered (hsize : size < 10 ^ 21) (h : Decodes negative size value w) :
    IsRendered negative size value w := by
  rcases Nat.eq_zero_or_pos size with rfl | hpos
  · have htext : Json.render (.number value) = ['0'] := by
      cases h with
      | word fits sign =>
        cases negative with
        | true => exact absurd (sign rfl) (lt_irrefl 0)
        | false => decide +kernel
      | negativeZero => decide +kernel
      | long exceeds leading =>
        refine absurd ?_ exceeds
        cases negative <;> decide
    have hzero : IsScriptText (ofDecimal negative 0 0) (Json.render (.number value)) := by
      rw [htext]
      exact .zero negative
    exact {
      toDouble := h.toDouble_eq
      render := fun h => absurd h (lt_irrefl 0)
      isScriptText_iff := iff_of_true hzero (.inl rfl)
      isScriptText_of_le := fun _ => hzero
      isScriptText_of_fifteen_digits := fun _ _ _ _ _ => hzero }
  · have hiff := h.isScriptText_iff_exists hpos hsize
    exact {
      toDouble := h.toDouble_eq
      render := fun _ => h.render_eq hpos hsize
      isScriptText_iff := by rw [hiff, or_iff_right hpos.ne']
      isScriptText_of_le := fun hle => hiff.2 (h.exists_isShortest_of_le hpos hsize hle)
      isScriptText_of_fifteen_digits := fun hdouble _ _ hm hdecimal =>
        hiff.2 (h.exists_isShortest_of_fifteen_digits hpos hsize hdouble hm hdecimal) }

/-- An integer literal of less than 22 digits is decoded wherever it stands in the data, and its
rendering is one of JavaScript's exactly if the decoded integer is a shortest decimal. -/
theorem exists_readValue_isRendered (hsize : size < 10 ^ 21) {rest : List Char}
    (hrest : EndsNumber rest) (depth : ℕ) :
    ∃ value w, readValue (depth + 1) (literal negative size ++ rest) =
        .ok (.number value, rest) ∧
      Decodes negative size value w ∧ IsRendered negative size value w := by
  obtain ⟨w, h⟩ := exists_decodes negative hsize
  exact ⟨_, w, readValue_literal negative hsize hrest depth, h, h.isRendered hsize⟩

/-- An integer literal of more than 64 bits in an array. -/
theorem exists_readValue_isRendered_item :
    ∃ value w, readValue 1 (literal false 123456789012345678901 ++ [']']) =
        .ok (.number value, [']']) ∧
      Decodes false 123456789012345678901 value w ∧
      IsRendered false 123456789012345678901 value w :=
  exists_readValue_isRendered (by norm_num) (delimited_cons (by decide)).endsNumber 0

/-- An integer literal whose rendering has 20 digits where JavaScript's has 17 and zeros. -/
theorem not_isScriptText_render :
    readValue 1 "12345678901234567890".toList =
        .ok (.number (.integer 12345678901234567890), []) ∧
      IsScriptText (ofDecimal false 12345678901234567890 0) "12345678901234567000".toList ∧
      ¬ IsScriptText (ofDecimal false 12345678901234567890 0)
        (Json.render (.number (.integer 12345678901234567890))) := by
  have hpos : 0 < 12345678901234567890 := by norm_num
  have hsize : 12345678901234567890 < 10 ^ 21 := by norm_num
  have hdecodes : Decodes false 12345678901234567890 (.integer 12345678901234567890)
      12345678901234567890 := .word (by decide) nofun
  have hdouble : ofDecimal false 12345678901234567890 0 = .finite false 6028163525993441 11 := by
    decide +kernel
  have hfound : shortest 6028163525993441 11 = ⟨12345678901234567, 3⟩ := by decide +kernel
  have hcanonical : Canonical 6028163525993441 11 :=
    ⟨by norm_num, by decide, by decide, .inr (by norm_num)⟩
  have hshort : Decimal.IsShortest ⟨12345678901234567, 3⟩ 6028163525993441 11 :=
    hfound ▸ isShortest_shortest hcanonical (by norm_num)
  refine ⟨readValue_literal false hsize delimited_nil.endsNumber 0, ?_, fun h => ?_⟩
  · rw [hdouble]
    exact .nonzero false (by norm_num) hshort
  · obtain ⟨m, k, ⟨s, e, hround, hother⟩, hdecimal⟩ :=
      (hdecodes.isScriptText_iff_exists hpos hsize).1 h
    obtain ⟨-, rfl, rfl⟩ := Double.finite.inj (hround.symm.trans hdouble)
    have hlength : decimalLength m ≤ 17 := hother.fewest _ hshort.rounds
    have hk : k < 2 := by
      by_contra hk
      have hdvd : 10 ^ 2 ∣ m * 10 ^ k := Dvd.dvd.mul_left (pow_dvd_pow 10 (not_lt.1 hk)) m
      rw [hdecimal] at hdvd
      exact absurd hdvd (by decide)
    have hm : 10 ^ 17 ≤ m := by
      interval_cases k <;> omega
    exact hm.not_gt ((lt_ten_pow_decimalLength m).trans_le
      (Nat.pow_le_pow_right (by norm_num) hlength))

end Json

end WordFields
