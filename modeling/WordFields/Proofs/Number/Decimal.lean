import WordFields.Number.Rendering
import WordFields.Proofs.Number.Rounding

/-!
# Shortest decimals

A decimal is a *shortest* one of a double if it rounds to the double, no decimal with fewer digits
does, and of those with as many digits it is one of the nearest.  Two kinds of decimals are
recognized as shortest without a search: those of at most fifteen digits
(`IsShortest.of_fifteen_digits`), because doubles tell any two of these apart, and the natural
numbers up to `2 ^ 53` (`IsShortest.of_le_two_pow`), because a number next to one of these that is
written with fewer digits would be another integer.
-/

namespace WordFields

namespace Decimal

/-- The number that a decimal denotes. -/
def toRat (d : Decimal) : ℚ :=
  d.digits * 10 ^ d.exponent

/-- Whether a decimal rounds to the double of a significand and an exponent. -/
def RoundsTo (d : Decimal) (s : ℕ) (e : ℤ) : Prop :=
  Double.ofDecimal false d.digits d.exponent = .finite false s e

/-- Whether a decimal is a shortest one of a double. -/
structure IsShortest (d : Decimal) (s : ℕ) (e : ℤ) : Prop where
  rounds : d.RoundsTo s e
  fewest : ∀ d' : Decimal, d'.RoundsTo s e →
    Double.decimalLength d.digits ≤ Double.decimalLength d'.digits
  nearest : ∀ d' : Decimal, d'.RoundsTo s e →
    Double.decimalLength d'.digits = Double.decimalLength d.digits →
      |d.toRat - Double.value s e| ≤ |d'.toRat - Double.value s e|

variable {d d' : Decimal} {s : ℕ} {e : ℤ}

/-! ## Decimals that round to a double -/

lemma RoundsTo.digits_pos (h : d.RoundsTo s e) (hs : 0 < s) : 0 < d.digits := by
  by_contra hzero
  rw [RoundsTo, Nat.eq_zero_of_not_pos hzero] at h
  cases h
  exact hs.ne rfl

/-- A decimal rounds as the ratio that stands for it. -/
lemma exists_ratio (hdigits : 0 < d.digits) : ∃ num den : ℕ, 0 < num ∧ 0 < den ∧
    (num / den : ℚ) = d.toRat ∧
      Double.ofDecimal false d.digits d.exponent = Double.ofRatio false num den :=
  ⟨_, _, Nat.mul_pos hdigits (Nat.pow_pos (by norm_num)), Nat.pow_pos (by norm_num),
    Double.decimal_div d.digits d.exponent, Double.ofDecimal_eq_ofRatio false hdigits d.exponent⟩

/-- What rounds to a double is at most half of its last place away. -/
lemma RoundsTo.spec (h : d.RoundsTo s e) (hs : 0 < s) :
    Double.Canonical s e ∧ |d.toRat - Double.value s e| ≤ 2 ^ e / 2 := by
  obtain ⟨num, den, hnum, hden, hrat, hratio⟩ := exists_ratio (h.digits_pos hs)
  rw [RoundsTo, hratio] at h
  rw [← hrat]
  exact (Double.ofRatio_spec hnum hden h).2

/-- A decimal of a number of the format rounds to that number. -/
lemma RoundsTo.value_eq (h : d.RoundsTo s e) (hs : 0 < s) {t : ℕ} {u : ℤ} (ht : t ≤ 2 ^ 53)
    (hu : Double.leastExponent ≤ u) (heq : d.toRat = Double.value t u) :
    Double.value s e = d.toRat := by
  obtain ⟨num, den, hnum, hden, hrat, hratio⟩ := exists_ratio (h.digits_pos hs)
  rw [RoundsTo, hratio] at h
  rw [heq]
  exact Double.value_eq_of_eq hnum hden h ht hu (hrat.trans heq)

/-- A number of at least one has all its bits. -/
lemma full_of_one_le (hcanonical : Double.Canonical s e) (h : 1 ≤ Double.value s e) :
    2 ^ 52 ≤ s := by
  refine hcanonical.full.resolve_left fun hleast => ?_
  have hlt := hcanonical.fits.lt
  have hsmall : (2 : ℚ) ^ (53 + e) ≤ 1 :=
    zpow_le_one_of_nonpos₀ (by norm_num) (hleast ▸ by decide)
  exact (hlt.trans_le hsmall).not_ge h

/-- The last place of a number with all its bits is far below the number. -/
lemma two_zpow_le_value (hfull : 2 ^ 52 ≤ s) : 2 ^ 52 * 2 ^ e ≤ Double.value s e := by
  refine mul_le_mul_of_nonneg_right ?_ (Double.two_zpow_pos e).le
  exact_mod_cast hfull

/-! ## Lengths -/

lemma decimalLength_le_of_le {m n : ℕ} (h : m ≤ n) :
    Double.decimalLength m ≤ Double.decimalLength n :=
  (Nat.length_toDigits_le_iff (by norm_num) Nat.length_toDigits_pos).2
    (h.trans_lt (Double.lt_ten_pow_decimalLength n))

lemma toRat_natCast (m k : ℕ) : toRat ⟨m, k⟩ = (m * 10 ^ k : ℕ) := by
  simp [toRat]

/-- Digits over a coarser power of ten are digits over a finer one. -/
lemma toRat_eq_of_le (m : ℕ) {j k : ℤ} (h : j ≤ k) :
    toRat ⟨m, k⟩ = toRat ⟨m * 10 ^ (k - j).toNat, j⟩ := by
  have hexponent : ((k - j).toNat : ℤ) + j = k := by omega
  simp only [toRat, Nat.cast_mul, Nat.cast_pow, Nat.cast_ofNat]
  rw [mul_assoc, ← zpow_natCast, ← Double.ten_zpow_add, hexponent]

lemma toRat_inj {m n : ℕ} {k : ℤ} : toRat ⟨m, k⟩ = toRat ⟨n, k⟩ ↔ m = n := by
  simp [toRat, mul_left_inj' (Double.ten_zpow_pos k).ne']

/-- Without zeros at the end no decimal of the same number has fewer digits. -/
lemma decimalLength_le_of_toRat_eq {m : ℕ} {k : ℤ} (hzero : ¬ 10 ∣ m)
    (h : toRat ⟨m, k⟩ = d'.toRat) : Double.decimalLength m ≤ Double.decimalLength d'.digits := by
  refine decimalLength_le_of_le ?_
  rcases le_or_gt d'.exponent k with hle | hlt
  · rw [toRat_eq_of_le m hle] at h
    have hdigits : m * 10 ^ (k - d'.exponent).toNat = d'.digits := toRat_inj.1 h
    rw [← hdigits]
    exact Nat.le_mul_of_pos_right m (Nat.pow_pos (by norm_num))
  · have hdigits : m = d'.digits * 10 ^ (d'.exponent - k).toNat :=
      toRat_inj.1 (h.trans (toRat_eq_of_le d'.digits hlt.le))
    refine absurd ?_ hzero
    rw [hdigits]
    exact Dvd.dvd.mul_left (dvd_pow_self 10 (by omega)) _

/-! ## Fifteen digits -/

/-- Different digits over one power of ten are at least that power apart. -/
lemma ten_zpow_le_abs_sub {m n : ℕ} {k : ℤ} (h : m ≠ n) :
    (10 : ℚ) ^ k ≤ |toRat ⟨m, k⟩ - toRat ⟨n, k⟩| := by
  have hstep := Double.ten_zpow_pos k
  rw [toRat, toRat, ← sub_mul, abs_mul, abs_of_pos hstep]
  exact le_mul_of_one_le_left hstep.le (Double.one_le_abs_sub h)

/-- Doubles with all their bits tell any two decimals of at most fifteen digits apart; it is enough
that the one with the finer power of ten has no more. -/
lemma toRat_eq_of_roundsTo (hfull : 2 ^ 52 ≤ s) (h : d.RoundsTo s e) (h' : d'.RoundsTo s e)
    (hdigits : d.digits < 10 ^ 15) (hle : d.exponent ≤ d'.exponent) : d.toRat = d'.toRat := by
  have hs : 0 < s := lt_of_lt_of_le (by norm_num) hfull
  have hother : d'.toRat = toRat ⟨d'.digits * 10 ^ (d'.exponent - d.exponent).toNat, d.exponent⟩ :=
    toRat_eq_of_le d'.digits hle
  by_contra hne
  rw [hother] at hne
  -- apart by a unit of the last digit, and at most a unit of the last place apart
  have hapart : (10 : ℚ) ^ d.exponent ≤ |d.toRat - d'.toRat| := by
    rw [hother]
    exact ten_zpow_le_abs_sub fun heq => hne (heq ▸ rfl)
  have herror := abs_le.1 (h.spec hs).2
  have herror' := abs_le.1 (h'.spec hs).2
  have hunit : (10 : ℚ) ^ d.exponent ≤ 2 ^ e := by
    refine hapart.trans (abs_le.2 ⟨?_, ?_⟩) <;> linarith
  have hvalue : (2 : ℚ) ^ 52 * 2 ^ e ≤ Double.value s e := two_zpow_le_value hfull
  have hsize : d.toRat < 10 ^ 15 * 2 ^ e := by
    calc
      d.toRat < 10 ^ 15 * 10 ^ d.exponent := by
        refine mul_lt_mul_of_pos_right ?_ (Double.ten_zpow_pos _)
        exact_mod_cast hdigits
      _ ≤ 10 ^ 15 * 2 ^ e := mul_le_mul_of_nonneg_left hunit (by norm_num)
  have hpos := Double.two_zpow_pos e
  linarith

/-- A decimal of at most fifteen digits without zeros at the end is a shortest one of the double it
rounds to. -/
theorem IsShortest.of_fifteen_digits (hfull : 2 ^ 52 ≤ s) (h : d.RoundsTo s e)
    (hdigits : d.digits < 10 ^ 15) (hzero : ¬ 10 ∣ d.digits) : d.IsShortest s e := by
  have hsame (d' : Decimal) (h' : d'.RoundsTo s e) (hdigits' : d'.digits < 10 ^ 15) :
      d.toRat = d'.toRat := by
    rcases le_total d.exponent d'.exponent with hle | hle
    · exact toRat_eq_of_roundsTo hfull h h' hdigits hle
    · exact (toRat_eq_of_roundsTo hfull h' h hdigits' hle).symm
  have hlength : Double.decimalLength d.digits ≤ 15 :=
    (Nat.length_toDigits_le_iff (by norm_num) (by norm_num)).2 hdigits
  have hsmall (d' : Decimal)
      (hle : Double.decimalLength d'.digits ≤ Double.decimalLength d.digits) :
      d'.digits < 10 ^ 15 :=
    (Double.lt_ten_pow_decimalLength _).trans_le
      (Nat.pow_le_pow_right (by norm_num) (hle.trans hlength))
  refine ⟨h, fun d' h' => ?_, fun d' h' heq => ?_⟩
  · by_contra hlt
    have heq := hsame d' h' (hsmall d' (not_le.1 hlt).le)
    exact hlt (decimalLength_le_of_toRat_eq hzero heq)
  · rw [hsame d' h' (hsmall d' heq.le)]

/-! ## Natural numbers up to `2 ^ 53` -/

section Natural

variable {n : ℕ} (hcanonical : Double.Canonical s e) (hvalue : Double.value s e = n) (hn : 0 < n)
  (hle : n ≤ 2 ^ 53)

include hcanonical hvalue hn in
lemma two_zpow_le_natCast : (2 : ℚ) ^ 52 * 2 ^ e ≤ n := by
  rw [← hvalue]
  refine two_zpow_le_value (full_of_one_le hcanonical ?_)
  rw [hvalue]
  exact_mod_cast hn

include hcanonical hvalue hn hle

/-- The only neighbours that round to such a number are odd and belong to `2 ^ 53`. -/
lemma eq_or_eq_of_error {N : ℕ} (herror : |(N : ℚ) - n| ≤ 2 ^ e / 2) :
    N = n ∨ n = 2 ^ 53 ∧ (N = 2 ^ 53 - 1 ∨ N = 2 ^ 53 + 1) := by
  have hunit := two_zpow_le_natCast hcanonical hvalue hn
  have hbound : (n : ℚ) ≤ 2 ^ 53 := by exact_mod_cast hle
  obtain ⟨hlow, hhigh⟩ := abs_le.1 herror
  have hclose : (N : ℚ) ≤ n + 1 ∧ (n : ℚ) ≤ N + 1 := by
    constructor <;> linarith
  have hclose : N ≤ n + 1 ∧ n ≤ N + 1 := by exact_mod_cast hclose
  rcases hle.eq_or_lt with heq | hlt
  · omega
  · -- below `2 ^ 53` the last place is at most a unit
    have hexponent : e ≤ 0 := by
      by_contra hpos
      have htwo : (2 : ℚ) ^ (1 : ℤ) ≤ 2 ^ e := Double.two_zpow_le.2 (by omega)
      have hlt : (n : ℚ) < 2 ^ 53 := by exact_mod_cast hlt
      linarith
    have hone : (2 : ℚ) ^ e ≤ 1 := zpow_le_one_of_nonpos₀ (by norm_num) hexponent
    have hnear : (2 * N : ℚ) < 2 * n + 2 ∧ (2 * n : ℚ) < 2 * N + 2 := by
      constructor <;> linarith
    have hnear : 2 * N < 2 * n + 2 ∧ 2 * n < 2 * N + 2 := by exact_mod_cast hnear
    omega

/-- No decimal with fewer digits than such a number without its zeros rounds to it. -/
lemma decimalLength_le_of_roundsTo {m k : ℕ} (hdecimal : n = m * 10 ^ k) (hzero : ¬ 10 ∣ m)
    (h : d.RoundsTo s e) : Double.decimalLength m ≤ Double.decimalLength d.digits := by
  have hs : 0 < s := by
    by_contra hs
    have hcast : (n : ℚ) = 0 := by simp [← hvalue, Double.value, Nat.eq_zero_of_not_pos hs]
    exact hn.ne' (by exact_mod_cast hcast)
  have herror := (h.spec hs).2
  rw [hvalue] at herror
  rcases le_or_gt 0 d.exponent with hexponent | hexponent
  · -- an integer, so the number itself or an odd neighbour of `2 ^ 53`
    have hrat : d.toRat = (d.digits * 10 ^ d.exponent.toNat : ℕ) := by
      rw [← toRat_natCast, Int.toNat_of_nonneg hexponent]
    rw [hrat] at herror
    rcases eq_or_eq_of_error hcanonical hvalue hn hle herror with heq | ⟨heq, hodd⟩
    · refine decimalLength_le_of_toRat_eq (k := k) hzero ?_
      rw [toRat_natCast, hrat, heq, hdecimal]
    · have hself : toRat ⟨d.digits * 10 ^ d.exponent.toNat, 0⟩ = d.toRat := by
        rw [hrat, toRat, zpow_zero, mul_one]
      calc
        Double.decimalLength m ≤ Double.decimalLength n :=
          decimalLength_le_of_le (hdecimal ▸ Nat.le_mul_of_pos_right m (Nat.pow_pos (by norm_num)))
        _ ≤ Double.decimalLength (d.digits * 10 ^ d.exponent.toNat) := by
          rcases hodd with hodd | hodd <;> rw [heq, hodd] <;> decide
        _ ≤ Double.decimalLength d.digits :=
          decimalLength_le_of_toRat_eq (by omega) hself
  · -- behind the point there is a digit more than the number has
    have hunit := two_zpow_le_natCast hcanonical hvalue hn
    have htenth : d.toRat ≤ d.digits / 10 := by
      rw [toRat, div_eq_mul_inv]
      refine mul_le_mul_of_nonneg_left ?_ (Nat.cast_nonneg _)
      calc
        (10 : ℚ) ^ d.exponent ≤ 10 ^ (-1 : ℤ) := Double.ten_zpow_le (by omega)
        _ = 10⁻¹ := zpow_neg_one 10
    have hlarge : (n : ℚ) ≤ d.digits := by
      have hlow := (abs_le.1 herror).1
      have hpos := Double.two_zpow_pos e
      linarith
    have hlarge : n ≤ d.digits := by exact_mod_cast hlarge
    have hm : m ≤ n := hdecimal ▸ Nat.le_mul_of_pos_right m (Nat.pow_pos (by norm_num))
    exact decimalLength_le_of_le (hm.trans hlarge)

end Natural

/-- A natural number up to `2 ^ 53` without its zeros is a shortest decimal of the double that it
is. -/
theorem IsShortest.of_le_two_pow {m k : ℕ} (h : RoundsTo ⟨m, k⟩ s e) (hs : 0 < s)
    (hle : m * 10 ^ k ≤ 2 ^ 53) (hzero : ¬ 10 ∣ m) : IsShortest ⟨m, k⟩ s e := by
  have hrat : toRat ⟨m, k⟩ = (m * 10 ^ k : ℕ) := toRat_natCast m k
  have hvalue : Double.value s e = toRat ⟨m, k⟩ := by
    refine h.value_eq hs hle (u := 0) (by decide) ?_
    rw [hrat, Double.value, zpow_zero, mul_one]
  have hn : 0 < m * 10 ^ k := Nat.mul_pos (h.digits_pos hs) (Nat.pow_pos (by norm_num))
  refine ⟨h, fun d' h' => ?_, fun d' _ _ => ?_⟩
  · exact decimalLength_le_of_roundsTo (h.spec hs).1 (hvalue.trans hrat) hn hle rfl hzero h'
  · rw [hvalue, sub_self, abs_zero]
    exact abs_nonneg _

end Decimal

end WordFields
