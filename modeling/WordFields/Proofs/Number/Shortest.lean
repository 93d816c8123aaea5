import WordFields.Proofs.Number.Decimal
import WordFields.Proofs.Number.Interval

/-!
# The search for a shortest decimal

`shortest` tries the grids of multiples of powers of ten from coarse to fine and stops at the first
one that has a point in the interval of the double.  The two neighbours of the double stand for the
whole grid, because the interval contains the double (`onGrid?_spec`), and seventeen grids are
enough (`exists_onGrid?_ne_none`).  A decimal with fewer digits than the one found is a point of a
coarser grid or lies on the other side of a power of ten, which then is such a point; so the one
found is a shortest decimal (`isShortest_shortest`).
-/

namespace WordFields

open Decimal

namespace Double

variable {s : ℕ} {e : ℤ} {k : ℤ}

/-! ## Exact comparisons -/

lemma ten_zpow_mul_toNat (k : ℤ) : (10 : ℚ) ^ k * 10 ^ (-k).toNat = 10 ^ k.toNat := by
  obtain ⟨n, rfl | rfl⟩ := k.eq_nat_or_neg <;> simp

lemma two_zpow_mul_toNat (e : ℤ) : (2 : ℚ) ^ e * 2 ^ (-e).toNat = 2 ^ e.toNat := by
  obtain ⟨n, rfl | rfl⟩ := e.eq_nat_or_neg <;> simp

/-- What makes natural numbers of a decimal and a number of the format: the powers in their
denominators. -/
def commonScale (k e : ℤ) : ℚ :=
  10 ^ (-k).toNat * 2 ^ (-e).toNat

lemma commonScale_pos (k e : ℤ) : 0 < commonScale k e := by
  rw [commonScale]
  positivity

lemma toRat_mul_commonScale (a : ℕ) (k e : ℤ) :
    toRat ⟨a, k⟩ * commonScale k e = (a * Nat.pow 10 k.toNat * Nat.pow 2 (-e).toNat : ℕ) := by
  calc
    toRat ⟨a, k⟩ * commonScale k e = a * (10 ^ k * 10 ^ (-k).toNat) * 2 ^ (-e).toNat := by
      rw [toRat, commonScale]
      ring
    _ = (a * Nat.pow 10 k.toNat * Nat.pow 2 (-e).toNat : ℕ) := by
      rw [ten_zpow_mul_toNat]
      simp

lemma value_mul_commonScale (b : ℕ) (k e : ℤ) :
    value b e * commonScale k e = (b * Nat.pow 2 e.toNat * Nat.pow 10 (-k).toNat : ℕ) := by
  calc
    value b e * commonScale k e = b * (2 ^ e * 2 ^ (-e).toNat) * 10 ^ (-k).toNat := by
      rw [value, commonScale]
      ring
    _ = (b * Nat.pow 2 e.toNat * Nat.pow 10 (-k).toNat : ℕ) := by
      rw [two_zpow_mul_toNat]
      simp

lemma toRat_lt_value_iff {a b : ℕ} {k e : ℤ} :
    toRat ⟨a, k⟩ < value b e ↔
      a * Nat.pow 10 k.toNat * Nat.pow 2 (-e).toNat <
        b * Nat.pow 2 e.toNat * Nat.pow 10 (-k).toNat := by
  rw [← mul_lt_mul_iff_of_pos_right (commonScale_pos k e), toRat_mul_commonScale,
    value_mul_commonScale]
  exact Nat.cast_lt

lemma value_lt_toRat_iff {a b : ℕ} {k e : ℤ} :
    value b e < toRat ⟨a, k⟩ ↔
      b * Nat.pow 2 e.toNat * Nat.pow 10 (-k).toNat <
        a * Nat.pow 10 k.toNat * Nat.pow 2 (-e).toNat := by
  rw [← mul_lt_mul_iff_of_pos_right (commonScale_pos k e), toRat_mul_commonScale,
    value_mul_commonScale]
  exact Nat.cast_lt

/-- The comparison of a decimal with a number of the format is exact. -/
lemma compareScaled_eq (a : ℕ) (k : ℤ) (b : ℕ) (e : ℤ) :
    compareScaled a k b e = compare (toRat ⟨a, k⟩) (value b e) := by
  rw [compareScaled]
  rcases lt_trichotomy (toRat ⟨a, k⟩) (value b e) with hlt | heq | hgt
  · rw [compare_lt_iff_lt.2 hlt, compare_lt_iff_lt.2 (toRat_lt_value_iff.1 hlt)]
  · have hle := mt toRat_lt_value_iff.2 heq.not_lt
    have hge := mt value_lt_toRat_iff.2 heq.not_gt
    rw [compare_eq_iff_eq.2 heq, compare_eq_iff_eq.2 (le_antisymm (not_lt.1 hge) (not_lt.1 hle))]
  · rw [compare_gt_iff_gt.2 hgt, compare_gt_iff_gt.2 (value_lt_toRat_iff.1 hgt)]

lemma value_quarter (n : ℕ) (e : ℤ) : value n (e - 2) = n / 4 * 2 ^ e := by
  rw [value, sub_eq_add_neg, two_zpow_add]
  norm_num
  ring

/-- The test for rounding to a double is the test for its interval. -/
lemma roundsTo_iff (hs : 0 < s) (m : ℕ) (k : ℤ) :
    roundsTo s e m k = true ↔ Within s e (toRat ⟨m, k⟩) := by
  have hlower : value (4 * s - if s = Nat.pow 2 52 ∧ leastExponent < e then 1 else 2) (e - 2) =
      lowerBound s e := by
    have hdense : (s = Nat.pow 2 52 ∧ leastExponent < e) ↔ IsDenseBelow s e := Iff.rfl
    rw [value_quarter, lowerBound]
    simp only [hdense]
    congr 1
    split_ifs
    · rw [Nat.cast_sub (by omega)]
      push_cast
      ring
    · rw [Nat.cast_sub (by omega)]
      push_cast
      ring
  have hupper : value (4 * s + 2) (e - 2) = upperBound s e := by
    rw [value_quarter, upperBound]
    push_cast
    ring
  simp only [roundsTo, compareScaled_eq, hlower, hupper]
  simp [Within, compare_lt_iff_lt, compare_gt_iff_gt, Nat.even_iff]

end Double

/-- The decimals that round to a double are those in its interval. -/
lemma Decimal.roundsTo_iff_within {d : Decimal} {s : ℕ} {e : ℤ} (h : Double.Canonical s e)
    (hs : 0 < s) : d.RoundsTo s e ↔ Double.Within s e d.toRat := by
  rcases Nat.eq_zero_or_pos d.digits with hzero | hdigits
  · have hlower : 0 < Double.lowerBound s e := by
      have hone : (1 : ℚ) ≤ s := by exact_mod_cast hs
      refine mul_pos ?_ (Double.two_zpow_pos e)
      split_ifs <;> linarith
    have hrat : d.toRat = 0 := by simp [toRat, hzero]
    refine iff_of_false (fun hrounds => (hrounds.digits_pos hs).ne' hzero) fun hwithin => ?_
    have hle := hwithin.bounds.1
    rw [hrat] at hle
    exact hlower.not_ge hle
  · obtain ⟨num, den, hnum, hden, hrat, hratio⟩ := exists_ratio hdigits
    rw [RoundsTo, hratio, Double.ofRatio_eq_finite_iff false h hnum hden, hrat]

namespace Double

variable {s : ℕ} {e : ℤ} {k : ℤ}

/-! ## One grid -/

/-- The points of a grid on both sides of a double. -/
lemma gridFloor_bounds (s : ℕ) (e k : ℤ) :
    toRat ⟨gridFloor s e k, k⟩ ≤ value s e ∧ value s e < toRat ⟨gridFloor s e k + 1, k⟩ := by
  rw [← not_lt, value_lt_toRat_iff, value_lt_toRat_iff, not_lt]
  have hden : 0 < Nat.pow 2 (-e).toNat * Nat.pow 10 k.toNat :=
    Nat.mul_pos (Nat.two_pow_pos _) (Nat.pow_pos (by norm_num))
  have horder (q : ℕ) : q * Nat.pow 10 k.toNat * Nat.pow 2 (-e).toNat =
      q * (Nat.pow 2 (-e).toNat * Nat.pow 10 k.toNat) := by ring
  rw [horder, horder, gridFloor]
  exact ⟨Nat.div_mul_le_self _ _, (Nat.div_lt_iff_lt_mul hden).1 (Nat.lt_succ_self _)⟩

lemma toRat_le_toRat {m n : ℕ} {k : ℤ} : toRat ⟨m, k⟩ ≤ toRat ⟨n, k⟩ ↔ m ≤ n := by
  rw [toRat, toRat, mul_le_mul_iff_of_pos_right (ten_zpow_pos k)]
  exact Nat.cast_le

/-- If a point of a grid below a double rounds to it, so does the one next to the double. -/
lemma within_gridFloor {m : ℕ} (hm : m ≤ gridFloor s e k) (h : Within s e (toRat ⟨m, k⟩)) :
    Within s e (toRat ⟨gridFloor s e k, k⟩) :=
  h.of_between (within_value s e) (toRat_le_toRat.2 hm) (gridFloor_bounds s e k).1

lemma within_gridFloor_succ {m : ℕ} (hm : gridFloor s e k < m) (h : Within s e (toRat ⟨m, k⟩)) :
    Within s e (toRat ⟨gridFloor s e k + 1, k⟩) :=
  (within_value s e).of_between h (gridFloor_bounds s e k).2.le (toRat_le_toRat.2 hm)

/-- The distances of the points of a grid grow with the distance from the double. -/
lemma abs_gridFloor_le {m : ℕ} (hm : m ≤ gridFloor s e k) :
    |toRat ⟨gridFloor s e k, k⟩ - value s e| ≤ |toRat ⟨m, k⟩ - value s e| := by
  have hle := (toRat_le_toRat (k := k)).2 hm
  have hfloor := (gridFloor_bounds s e k).1
  rw [abs_of_nonpos (by linarith), abs_of_nonpos (by linarith)]
  linarith

lemma abs_gridFloor_succ_le {m : ℕ} (hm : gridFloor s e k < m) :
    |toRat ⟨gridFloor s e k + 1, k⟩ - value s e| ≤ |toRat ⟨m, k⟩ - value s e| := by
  have hle := (toRat_le_toRat (k := k)).2 (Nat.succ_le_of_lt hm)
  have hceil := (gridFloor_bounds s e k).2
  rw [abs_of_nonneg (by linarith), abs_of_nonneg (by linarith)]
  linarith

/-- Whether a natural number is a point of a grid that rounds to the double, and no other point of
the grid that does is nearer. -/
def IsBest (s : ℕ) (e k : ℤ) (m : ℕ) : Prop :=
  Within s e (toRat ⟨m, k⟩) ∧
    ∀ n, Within s e (toRat ⟨n, k⟩) → |toRat ⟨m, k⟩ - value s e| ≤ |toRat ⟨n, k⟩ - value s e|

/-- A neighbour of the double is a best point if the other one is not or is no nearer. -/
lemma isBest_gridFloor (h : Within s e (toRat ⟨gridFloor s e k, k⟩))
    (hother : Within s e (toRat ⟨gridFloor s e k + 1, k⟩) →
      |toRat ⟨gridFloor s e k, k⟩ - value s e| ≤ |toRat ⟨gridFloor s e k + 1, k⟩ - value s e|) :
    IsBest s e k (gridFloor s e k) := by
  refine ⟨h, fun n hn => ?_⟩
  rcases le_or_gt n (gridFloor s e k) with hle | hlt
  · exact abs_gridFloor_le hle
  · exact (hother (within_gridFloor_succ hlt hn)).trans (abs_gridFloor_succ_le hlt)

lemma isBest_gridFloor_succ (h : Within s e (toRat ⟨gridFloor s e k + 1, k⟩))
    (hother : Within s e (toRat ⟨gridFloor s e k, k⟩) →
      |toRat ⟨gridFloor s e k + 1, k⟩ - value s e| ≤ |toRat ⟨gridFloor s e k, k⟩ - value s e|) :
    IsBest s e k (gridFloor s e k + 1) := by
  refine ⟨h, fun n hn => ?_⟩
  rcases le_or_gt n (gridFloor s e k) with hle | hlt
  · exact (hother (within_gridFloor hle hn)).trans (abs_gridFloor_le hle)
  · exact abs_gridFloor_succ_le hlt

/-- The sum of two neighbours tells which of them is nearer. -/
lemma compareScaled_neighbours (s : ℕ) (e k : ℤ) :
    (compareScaled (gridFloor s e k + (gridFloor s e k + 1)) k (2 * s) e == .gt) = true ↔
      |toRat ⟨gridFloor s e k, k⟩ - value s e| < |toRat ⟨gridFloor s e k + 1, k⟩ - value s e| := by
  obtain ⟨hfloor, hceil⟩ := gridFloor_bounds s e k
  have hsum : toRat ⟨gridFloor s e k + (gridFloor s e k + 1), k⟩ =
      toRat ⟨gridFloor s e k, k⟩ + toRat ⟨gridFloor s e k + 1, k⟩ := by
    simp only [toRat]
    push_cast
    ring
  have hdouble : value (2 * s) e = value s e + value s e := by
    simp only [value]
    push_cast
    ring
  rw [beq_iff_eq, compareScaled_eq, compare_gt_iff_gt, hsum, hdouble,
    abs_of_nonpos (sub_nonpos.2 hfloor), abs_of_pos (sub_pos.2 hceil)]
  constructor <;> intro h <;> linarith

/-- What is found on a grid is one of the neighbours of the double and a best point; nothing is
found only where no point of the grid rounds to the double. -/
lemma onGrid?_spec (hs : 0 < s) (k : ℤ) :
    match onGrid? s e k with
    | some m => IsBest s e k m ∧ (m = gridFloor s e k ∨ m = gridFloor s e k + 1)
    | none => ∀ m, ¬ Within s e (toRat ⟨m, k⟩) := by
  have hlow := roundsTo_iff (e := e) hs (gridFloor s e k) k
  have hhigh := roundsTo_iff (e := e) hs (gridFloor s e k + 1) k
  have hnear := compareScaled_neighbours s e k
  simp only [onGrid?]
  rcases hrounds : roundsTo s e (gridFloor s e k) k <;>
    rcases hrounds' : roundsTo s e (gridFloor s e k + 1) k <;>
    simp only [hrounds, hrounds', Bool.false_eq_true, false_iff, true_iff] at hlow hhigh
  · intro m h
    rcases le_or_gt m (gridFloor s e k) with hm | hm
    · exact hlow (within_gridFloor hm h)
    · exact hhigh (within_gridFloor_succ hm h)
  · exact ⟨isBest_gridFloor_succ hhigh (absurd · hlow), .inr rfl⟩
  · exact ⟨isBest_gridFloor hlow (absurd · hhigh), .inl rfl⟩
  · by_cases hgt :
        (compareScaled (gridFloor s e k + (gridFloor s e k + 1)) k (2 * s) e == .gt) = true
    · rw [if_pos hgt]
      exact ⟨isBest_gridFloor hlow fun _ => (hnear.1 hgt).le, .inl rfl⟩
    · rw [if_neg hgt]
      exact ⟨isBest_gridFloor_succ hhigh fun _ => not_lt.1 (mt hnear.2 hgt), .inr rfl⟩

lemma isBest_of_onGrid? (hs : 0 < s) {m : ℕ} (h : onGrid? s e k = some m) :
    IsBest s e k m ∧ (m = gridFloor s e k ∨ m = gridFloor s e k + 1) := by
  have hspec := onGrid?_spec (e := e) hs k
  rwa [h] at hspec

lemma not_within_of_onGrid? (hs : 0 < s) (h : onGrid? s e k = none) (m : ℕ) :
    ¬ Within s e (toRat ⟨m, k⟩) := by
  have hspec := onGrid?_spec (e := e) hs k
  rw [h] at hspec
  exact hspec m

/-! ## The coarsest grid -/

lemma gridFloor_neg (s : ℕ) (e : ℤ) (n : ℕ) :
    gridFloor s e (-n) = s * Nat.pow 2 e.toNat * Nat.pow 10 n / Nat.pow 2 (-e).toNat := by
  simp [gridFloor]

lemma leadingExponent_eq (s : ℕ) (e : ℤ) :
    leadingExponent s e = decimalLength (gridFloor s e (-(330 : ℕ))) - 331 := by
  rw [gridFloor_neg]
  unfold leadingExponent
  generalize 330 = n
  rfl

/-- The length of a double's part in front of the point, once enough places are moved there. -/
lemma gridFloor_neg_bounds {n : ℕ} (h : (10 : ℚ) ^ (-n : ℤ) ≤ value s e) :
    (10 : ℚ) ^ (decimalLength (gridFloor s e (-n)) + -n - 1 : ℤ) ≤ value s e ∧
      value s e < 10 ^ (decimalLength (gridFloor s e (-n)) + -n : ℤ) := by
  obtain ⟨hfloor, hceil⟩ := gridFloor_bounds s e (-n)
  set q := gridFloor s e (-n)
  have hpos : 0 < q := by
    by_contra hzero
    rw [Nat.eq_zero_of_not_pos hzero, toRat, Nat.zero_add, Nat.cast_one, one_mul] at hceil
    exact hceil.not_ge h
  refine ⟨(ten_zpow_bounds hpos (-n)).1.trans hfloor, hceil.trans_le ?_⟩
  rw [toRat, ten_zpow_add]
  refine mul_le_mul_of_nonneg_right ?_ (ten_zpow_pos _).le
  rw [zpow_natCast]
  exact_mod_cast lt_ten_pow_decimalLength q

/-- The search starts at the power of ten that the double has as its first digit. -/
lemma leadingExponent_bounds (h : Canonical s e) (hs : 0 < s) :
    (10 : ℚ) ^ leadingExponent s e ≤ value s e ∧ value s e < 10 ^ (leadingExponent s e + 1) := by
  have hleast : (10 : ℚ) ^ (-(330 : ℕ) : ℤ) ≤ value s e := by
    calc
      (10 : ℚ) ^ (-(330 : ℕ) : ℤ) ≤ 10 ^ (-324 : ℤ) := ten_zpow_le (by norm_num)
      _ ≤ 2 ^ (-1075 : ℤ) := ten_zpow_le_two_zpow
      _ ≤ 2 ^ e := two_zpow_le.2 (le_trans (by decide) h.least_le)
      _ ≤ value s e := le_mul_of_one_le_left (two_zpow_pos e).le (by exact_mod_cast hs)
  have hbounds := gridFloor_neg_bounds hleast
  have hleading : leadingExponent s e =
      decimalLength (gridFloor s e (-(330 : ℕ))) + -(330 : ℕ) - 1 := by
    rw [leadingExponent_eq]
    push_cast
    ring
  rwa [hleading, sub_add_cancel]

/-! ## The search -/

lemma searchGrids_spec (s : ℕ) (e : ℤ) {tries : ℕ} {k : ℤ}
    (h : ∃ j : ℕ, j < tries ∧ onGrid? s e (k - j) ≠ none) :
    ∃ (j : ℕ) (m : ℕ), onGrid? s e (k - j) = some m ∧
      (∀ i : ℕ, i < j → onGrid? s e (k - i) = none) ∧
      searchGrids s e tries k = gridPoint m (k - j) := by
  induction tries generalizing k with
  | zero =>
    obtain ⟨j, hj, -⟩ := h
    exact absurd hj (Nat.not_lt_zero j)
  | succ tries ih =>
    rw [searchGrids]
    cases hfirst : onGrid? s e k with
    | some m => exact ⟨0, m, by simpa using hfirst, nofun, by simp⟩
    | none =>
      have hshift (j : ℕ) : k - 1 - j = k - (j + 1 : ℕ) := by
        push_cast
        ring
      have hrest : ∃ j : ℕ, j < tries ∧ onGrid? s e (k - 1 - j) ≠ none := by
        obtain ⟨j, hj, hsome⟩ := h
        cases j with
        | zero => exact absurd (by simpa using hfirst) hsome
        | succ j => exact ⟨j, Nat.lt_of_succ_lt_succ hj, by rwa [hshift]⟩
      obtain ⟨j, m, hm, hnone, hsearch⟩ := ih hrest
      refine ⟨j + 1, m, by rw [← hshift, hm], fun i hi => ?_, by rw [← hshift, hsearch]⟩
      cases i with
      | zero => simpa using hfirst
      | succ i => rw [← hshift, hnone i (Nat.lt_of_succ_lt_succ hi)]

/-- A grid that is finer than the last place has a point that rounds to the double. -/
lemma onGrid?_ne_none (hs : 0 < s) (hfine : (10 : ℚ) ^ k < 2 ^ e)
    (hdense : s = 2 ^ 52 → 2 * (10 : ℚ) ^ k < 2 ^ e) : onGrid? s e k ≠ none := by
  intro hnone
  have hspec := not_within_of_onGrid? hs hnone
  obtain ⟨hfloor, hceil⟩ := gridFloor_bounds s e k
  have hstep : toRat ⟨gridFloor s e k + 1, k⟩ = toRat ⟨gridFloor s e k, k⟩ + 10 ^ k := by
    rw [toRat, toRat]
    push_cast
    ring
  have hlower : lowerBound s e + 10 ^ k / 2 < value s e := by
    rw [lowerBound, value]
    split_ifs with h
    · linarith [hdense h.1]
    · linarith
  have hupper : value s e + 10 ^ k / 2 < upperBound s e := by
    rw [upperBound, value]
    linarith
  -- one of the two neighbours is at most half of a step away
  rcases le_total (value s e - toRat ⟨gridFloor s e k, k⟩) (10 ^ k / 2) with hnear | hnear
  · exact hspec _ (.inl ⟨by linarith, hfloor.trans_lt (value_lt_upperBound s e)⟩)
  · exact hspec _ (.inl ⟨(lowerBound_lt_value s e).trans hceil, by linarith⟩)

/-- Seventeen digits suffice. -/
lemma exists_onGrid?_ne_none (h : Canonical s e) (hs : 0 < s) :
    ∃ j : ℕ, j < 17 ∧ onGrid? s e (leadingExponent s e - j) ≠ none := by
  have hlead := (leadingExponent_bounds h hs).1
  set k := leadingExponent s e - (16 : ℕ) with hk
  have hpower : (10 : ℚ) ^ leadingExponent s e = 10 ^ 16 * 10 ^ k := by
    rw [hk, ← zpow_natCast, ← ten_zpow_add]
    congr 1
    push_cast
    ring
  rw [hpower, value] at hlead
  have hpos := two_zpow_pos e
  refine ⟨16, by norm_num, onGrid?_ne_none hs ?_ fun hs => ?_⟩
  · have hlt : (s : ℚ) < 2 ^ 53 := by exact_mod_cast h.lt
    have hvalue : (s : ℚ) * 2 ^ e < 2 ^ 53 * 2 ^ e := mul_lt_mul_of_pos_right hlt hpos
    linarith
  · rw [hs] at hlead
    push_cast at hlead
    linarith

end Double

/-! ## The decimal that is found -/

namespace Decimal

variable {d : Decimal} {k : ℤ}

/-- A decimal with few digits over a small power of ten is small. -/
lemma toRat_lt_of_decimalLength {n : ℕ} (hlength : Double.decimalLength d.digits ≤ n)
    (hle : d.exponent ≤ k) : d.toRat < 10 ^ (n + k) := by
  have hdigits : (d.digits : ℚ) < 10 ^ n := by
    have hlt := (Double.lt_ten_pow_decimalLength d.digits).trans_le
      (Nat.pow_le_pow_right (by norm_num) hlength)
    exact_mod_cast hlt
  calc
    d.toRat < 10 ^ n * 10 ^ d.exponent := mul_lt_mul_of_pos_right hdigits (Double.ten_zpow_pos _)
    _ ≤ 10 ^ n * 10 ^ k :=
      mul_le_mul_of_nonneg_left (Double.ten_zpow_le hle) (by positivity)
    _ = 10 ^ (n + k) := by rw [Double.ten_zpow_add, zpow_natCast]

lemma toRat_ten_pow (n : ℕ) (k : ℤ) : toRat ⟨10 ^ n, k⟩ = 10 ^ (n + k) := by
  rw [toRat, Double.ten_zpow_add, zpow_natCast]
  push_cast
  rfl

lemma toRat_gridPoint (m : ℕ) (k : ℤ) : (Double.gridPoint m k).toRat = toRat ⟨m, k⟩ := by
  rw [Double.gridPoint]
  split_ifs with h
  · rw [h, toRat, toRat, Double.ten_zpow_add, zpow_one]
    push_cast
    ring
  · rfl

end Decimal

namespace Double

variable {s : ℕ} {e : ℤ}

/-- The points next to a double have a digit for every grid that was tried, but for the next power
of ten. -/
lemma gridFloor_lt (h : Canonical s e) (hs : 0 < s) (j : ℕ) :
    gridFloor s e (leadingExponent s e - j) < 10 ^ (j + 1) := by
  set k := leadingExponent s e - j with hk
  have hfloor := (gridFloor_bounds s e k).1
  have hlead := (leadingExponent_bounds h hs).2
  have hpower : toRat ⟨10 ^ (j + 1), k⟩ = 10 ^ (leadingExponent s e + 1) := by
    rw [toRat_ten_pow, hk]
    congr 1
    push_cast
    ring
  rw [← hpower] at hlead
  exact not_le.1 fun hle => (hfloor.trans_lt hlead).not_ge (toRat_le_toRat.2 hle)

/-- A best point with which the search ends: `j` coarser grids down to `10 ^ (k + 1)` have no point
that rounds to the double, and the double has the digits of `j + 1` places down to `10 ^ k`. -/
structure IsFirst (s : ℕ) (e : ℤ) (j : ℕ) (k : ℤ) (m : ℕ) : Prop where
  best : IsBest s e k m
  le : m ≤ 10 ^ (j + 1)
  coarser : 0 < j → ∀ n, ¬ Within s e (toRat ⟨n, k + 1⟩)
  leading : toRat ⟨10 ^ j, k⟩ ≤ value s e

/-- The search ends with such a point. -/
lemma exists_isFirst (h : Canonical s e) (hs : 0 < s) :
    ∃ j k m, IsFirst s e j k m ∧ shortest s e = gridPoint m k := by
  obtain ⟨j, m, hm, hnone, hsearch⟩ := searchGrids_spec s e (exists_onGrid?_ne_none h hs)
  obtain ⟨hbest, hneighbour⟩ := isBest_of_onGrid? hs hm
  have hfloor := gridFloor_lt h hs j
  refine ⟨j, _, m, ⟨hbest, by omega, fun hj => ?_, ?_⟩, hsearch⟩
  · have hnone := not_within_of_onGrid? hs (hnone (j - 1) (by omega))
    have hgrid : leadingExponent s e - (j - 1 : ℕ) = leadingExponent s e - j + 1 := by omega
    rwa [hgrid] at hnone
  · rw [toRat_ten_pow, add_sub_cancel]
    exact (leadingExponent_bounds h hs).1

namespace IsFirst

variable {j : ℕ} {k : ℤ} {m : ℕ} {d : Decimal} (h : IsFirst s e j k m)

include h

/-- A power of ten on the grid is on the next coarser one. -/
lemma not_within_ten_pow {i : ℕ} (hj : 0 < j) (hi : 0 < i) :
    ¬ Within s e (toRat ⟨10 ^ i, k⟩) := by
  obtain ⟨i, rfl⟩ := Nat.exists_eq_add_one_of_ne_zero hi.ne'
  have hten : toRat ⟨10 ^ (i + 1), k⟩ = toRat ⟨10 ^ i, k + 1⟩ := by
    rw [toRat_ten_pow, toRat_ten_pow]
    congr 1
    push_cast
    ring
  rw [hten]
  exact h.coarser hj _

lemma decimalLength_le : decimalLength (gridPoint m k).digits ≤ j + 1 := by
  refine (Nat.length_toDigits_le_iff (by norm_num) (Nat.succ_pos j)).2 ?_
  rw [gridPoint]
  split_ifs with hpoint
  · exact Nat.one_lt_pow (Nat.succ_ne_zero j) (by norm_num)
  · refine lt_of_le_of_ne h.le fun hpower => ?_
    have hpower : m = 10 ^ (j + 1) := hpower
    have hj : 0 < j := by
      by_contra hj
      obtain rfl : j = 0 := Nat.eq_zero_of_not_pos hj
      exact hpoint (by simpa using hpower)
    have hwithin := h.best.1
    rw [hpower] at hwithin
    exact h.not_within_ten_pow hj (Nat.succ_pos j) hwithin

/-- If a number with fewer places in front than the double rounds to it, so does the power of ten
between the two. -/
lemma within_leading {x : ℚ} (hx : Within s e x) (hlt : x < 10 ^ (j + k)) :
    Within s e (toRat ⟨10 ^ j, k⟩) :=
  hx.of_between (within_value s e) ((toRat_ten_pow j k).symm ▸ hlt.le) h.leading

/-- A decimal of fewer digits would be on a coarser grid or have fewer places in front. -/
lemma lt_decimalLength (hd : Within s e d.toRat) : j < decimalLength d.digits := by
  by_contra hfewer
  have hlength := not_lt.1 hfewer
  have hj : 0 < j := (decimalLength_pos d.digits).trans_le hlength
  rcases le_or_gt d.exponent k with hle | hlt
  · exact h.not_within_ten_pow hj hj (h.within_leading hd (toRat_lt_of_decimalLength hlength hle))
  · obtain ⟨digits, exponent⟩ := d
    rw [toRat_eq_of_le digits (Int.add_one_le_of_lt hlt)] at hd
    exact h.coarser hj _ hd

/-- A decimal of as many digits is on the grid or has fewer places in front. -/
lemma abs_sub_le (hd : Within s e d.toRat) (hlength : decimalLength d.digits ≤ j + 1) :
    |toRat ⟨m, k⟩ - value s e| ≤ |d.toRat - value s e| := by
  rcases le_or_gt k d.exponent with hle | hlt
  · obtain ⟨digits, exponent⟩ := d
    rw [toRat_eq_of_le digits hle] at hd ⊢
    exact h.best.2 _ hd
  · have hsmall : d.toRat < 10 ^ (j + k) := by
      refine (toRat_lt_of_decimalLength hlength (Int.le_sub_one_of_lt hlt)).trans_eq ?_
      congr 1
      push_cast
      ring
    refine (h.best.2 _ (h.within_leading hd hsmall)).trans ?_
    have hleading := h.leading
    rw [← toRat_ten_pow] at hsmall
    rw [abs_of_nonpos (by linarith), abs_of_nonpos (by linarith)]
    linarith

end IsFirst

/-- The decimal that the search finds is a shortest one. -/
theorem isShortest_shortest (h : Canonical s e) (hs : 0 < s) : (shortest s e).IsShortest s e := by
  obtain ⟨j, k, m, hfirst, hfound⟩ := exists_isFirst h hs
  rw [hfound]
  constructor
  case rounds =>
    rw [roundsTo_iff_within h hs, toRat_gridPoint]
    exact hfirst.best.1
  case fewest =>
    intro d hd
    exact hfirst.decimalLength_le.trans
      (hfirst.lt_decimalLength ((roundsTo_iff_within h hs).1 hd))
  case nearest =>
    intro d hd hlength
    rw [toRat_gridPoint]
    exact hfirst.abs_sub_le ((roundsTo_iff_within h hs).1 hd)
      (hlength.trans_le hfirst.decimalLength_le)

end Double

end WordFields
