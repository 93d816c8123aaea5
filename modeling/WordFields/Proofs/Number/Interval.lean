import Mathlib.Algebra.Ring.Parity
import WordFields.Proofs.Number.Rounding

/-!
# The numbers that round to a double

The numbers that round to one double are an interval around it (`ofRatio_eq_finite_iff`): half of a
last place to both sides, but a quarter below a double with the least significand of 53 bits,
because the doubles below are twice as dense.  The bounds belong to the interval if the significand
is even.
-/

namespace WordFields.Double

variable {s : ℕ} {e : ℤ} {x y z : ℚ}

/-- Whether a double has neighbours at half the distance below it. -/
def IsDenseBelow (s : ℕ) (e : ℤ) : Prop :=
  s = 2 ^ 52 ∧ leastExponent < e

instance (s : ℕ) (e : ℤ) : Decidable (IsDenseBelow s e) :=
  inferInstanceAs (Decidable (_ ∧ _))

/-- The least number that can round to a double. -/
def lowerBound (s : ℕ) (e : ℤ) : ℚ :=
  (s - if IsDenseBelow s e then 1 / 4 else 1 / 2) * 2 ^ e

/-- The greatest number that can round to a double. -/
def upperBound (s : ℕ) (e : ℤ) : ℚ :=
  (s + 1 / 2) * 2 ^ e

/-- Whether a number is in the interval of a double. -/
def Within (s : ℕ) (e : ℤ) (x : ℚ) : Prop :=
  lowerBound s e < x ∧ x < upperBound s e ∨
    Even s ∧ (x = lowerBound s e ∨ x = upperBound s e)

lemma lowerBound_lt_value (s : ℕ) (e : ℤ) : lowerBound s e < value s e := by
  refine mul_lt_mul_of_pos_right ?_ (two_zpow_pos e)
  split_ifs <;> linarith

lemma value_lt_upperBound (s : ℕ) (e : ℤ) : value s e < upperBound s e :=
  mul_lt_mul_of_pos_right (by linarith) (two_zpow_pos e)

lemma within_value (s : ℕ) (e : ℤ) : Within s e (value s e) :=
  .inl ⟨lowerBound_lt_value s e, value_lt_upperBound s e⟩

lemma Within.bounds (h : Within s e x) : lowerBound s e ≤ x ∧ x ≤ upperBound s e := by
  have hlt := (lowerBound_lt_value s e).trans (value_lt_upperBound s e)
  rcases h with ⟨hlow, hhigh⟩ | ⟨-, rfl | rfl⟩
  · exact ⟨hlow.le, hhigh.le⟩
  · exact ⟨le_rfl, hlt.le⟩
  · exact ⟨hlt.le, le_rfl⟩

/-- What lies between two numbers of the interval is in it. -/
lemma Within.of_between (hx : Within s e x) (hz : Within s e z) (hxy : x ≤ y) (hyz : y ≤ z) :
    Within s e y := by
  rcases hxy.eq_or_lt with rfl | hxy
  · exact hx
  rcases hyz.eq_or_lt with rfl | hyz
  · exact hz
  · exact .inl ⟨hx.bounds.1.trans_lt hxy, hyz.trans_le hz.bounds.2⟩

/-! ## Nearest natural numbers -/

/-- Whether a natural number is nearest to a number, ties going to the even one. -/
def IsNearest (r : ℕ) (x : ℚ) : Prop :=
  |x - r| ≤ 1 / 2 ∧ (|x - r| = 1 / 2 → Even r)

lemma even_roundToEven {n d : ℕ} (h : 2 * (n % d) = d) : Even (roundToEven n d) := by
  have hparity := Nat.mod_two_eq_zero_or_one (n / d)
  simp only [roundToEven, h, lt_irrefl, if_false, Nat.even_iff]
  omega

lemma isNearest_roundToEven (n : ℕ) {d : ℕ} (hd : 0 < d) :
    IsNearest (roundToEven n d) (n / d) := by
  refine ⟨abs_sub_roundToEven hd, fun htie => even_roundToEven ?_⟩
  have hpos : (0 : ℚ) < d := by exact_mod_cast hd
  have hdiv : d * (n / d) + n % d = n := Nat.div_add_mod n d
  have hnonneg : 0 ≤ n % d := Nat.zero_le _
  have hlt : n % d < d := Nat.mod_lt n hd
  have htie : 2 * n = (2 * roundToEven n d + 1) * d ∨
      2 * n + d = 2 * roundToEven n d * d := by
    rcases eq_or_eq_neg_of_abs_eq htie with h | h <;>
      rw [sub_eq_iff_eq_add, div_eq_iff hpos.ne'] at h
    · left
      have h : (2 * n : ℚ) = (2 * roundToEven n d + 1) * d := by linarith
      exact_mod_cast h
    · right
      have h : (2 * n + d : ℚ) = 2 * roundToEven n d * d := by linarith
      exact_mod_cast h
  rcases roundToEven_cases n d with ⟨h, hmod⟩ | ⟨h, hmod⟩ <;> rw [h] at htie <;>
    rcases htie with htie | htie <;> linarith

lemma IsNearest.unique {r r' : ℕ} (h : IsNearest r x) (h' : IsNearest r' x) : r = r' := by
  by_contra hne
  have hone : (1 : ℚ) ≤ |(r : ℚ) - r'| := one_le_abs_sub hne
  have htriangle : |(r : ℚ) - r'| ≤ |x - r| + |x - r'| := by
    rw [abs_sub_comm x r]
    exact abs_sub_le _ _ _
  -- both are at the distance of a tie, so they are neighbours and both even
  have htie : |x - r| = 1 / 2 := le_antisymm h.1 (by linarith [h'.1])
  have htie' : |x - r'| = 1 / 2 := le_antisymm h'.1 (by linarith [h.1])
  have heven := h.2 htie
  have heven' := h'.2 htie'
  have hle : |(r : ℤ) - r'| ≤ 1 := by
    have hcast : |(r : ℚ) - r'| ≤ 1 := by linarith
    exact_mod_cast hcast
  obtain ⟨a, rfl⟩ := heven
  obtain ⟨b, rfl⟩ := heven'
  rw [abs_le] at hle
  omega

/-! ## The interval of a double -/

/-- The interval in units of the last place. -/
lemma within_iff_div : Within s e x ↔
    (s - if IsDenseBelow s e then 1 / 4 else 1 / 2 : ℚ) < x / 2 ^ e ∧ x / 2 ^ e < s + 1 / 2 ∨
      Even s ∧ (x / 2 ^ e = (s - if IsDenseBelow s e then 1 / 4 else 1 / 2 : ℚ) ∨
        x / 2 ^ e = s + 1 / 2) := by
  have hpos := two_zpow_pos e
  rw [Within, lowerBound, upperBound, lt_div_iff₀ hpos, div_lt_iff₀ hpos, div_eq_iff hpos.ne',
    div_eq_iff hpos.ne']

section Ratio

variable {num den : ℕ} {negative : Bool}

lemma isNearest_nearestSteps (num : ℕ) (hden : 0 < den) :
    IsNearest (nearestSteps num den) (num / den / 2 ^ exponentFor num den) := by
  rw [← scaleDown_div]
  exact isNearest_roundToEven _ (scaleDown_snd_pos hden num _)

/-- Fitting exponents in units of the last place. -/
lemma fits_iff_div : Fits x e ↔
    leastExponent ≤ e ∧ x / 2 ^ e < 2 ^ 53 ∧ (e = leastExponent ∨ 2 ^ 52 ≤ x / 2 ^ e) := by
  have hpos := two_zpow_pos e
  rw [div_lt_iff₀ hpos, le_div_iff₀ hpos]
  constructor
  · rintro ⟨hleast, hlt, hfull⟩
    rw [two_zpow_add] at hlt hfull
    exact ⟨hleast, hlt, hfull⟩
  · rintro ⟨hleast, hlt, hfull⟩
    refine ⟨hleast, ?_, ?_⟩ <;> rw [two_zpow_add]
    · exact hlt
    · exact hfull

/-- Halving the unit of the last place doubles a number. -/
lemma div_two_zpow_succ (x : ℚ) (e : ℤ) : x / 2 ^ e = 2 * (x / 2 ^ (e + 1)) := by
  rw [two_zpow_add, zpow_one]
  field_simp

/-- A number that rounds to a double is in the interval of the double. -/
lemma within_of_ofRatio (hnum : 0 < num) (hden : 0 < den)
    (h : ofRatio negative num den = .finite negative s e) : Within s e (num / den) := by
  obtain ⟨hleast, hlt, hfull⟩ := fits_iff_div.1 (fits_exponentFor hnum hden)
  obtain ⟨herror, htie⟩ := isNearest_nearestSteps num hden
  rw [within_iff_div]
  obtain ⟨rfl, rfl⟩ | ⟨hcarry, rfl, rfl⟩ := (ofRatio_eq_finite hnum hden h).2.2
  · set y : ℚ := num / den / 2 ^ exponentFor num den
    set s := nearestSteps num den
    obtain ⟨hlow, hhigh⟩ := abs_le.1 herror
    have heven (hy : y = s - 1 / 2 ∨ y = s + 1 / 2) : Even s := by
      refine htie ?_
      rcases hy with hy | hy <;> rw [hy] <;> norm_num
    have hupper : y < s + 1 / 2 ∨ Even s ∧ y = s + 1 / 2 := by
      rcases (sub_le_iff_le_add'.1 hhigh).lt_or_eq with hlt | heq
      · exact .inl hlt
      · exact .inr ⟨heven (.inr heq), heq⟩
    split_ifs with hdense
    · -- a number with this significand is not below it
      have hs : (s : ℚ) = 2 ^ 52 := by exact_mod_cast hdense.1
      have hy := hfull.resolve_left hdense.2.ne'
      rcases hupper with hupper | ⟨hs, hupper⟩
      · exact .inl ⟨by linarith, hupper⟩
      · exact .inr ⟨hs, .inr hupper⟩
    · have hlower : (s : ℚ) - 1 / 2 < y ∨ Even s ∧ y = s - 1 / 2 := by
        rcases (show (s : ℚ) - 1 / 2 ≤ y by linarith).lt_or_eq with hlt | heq
        · exact .inl hlt
        · exact .inr ⟨heven (.inl heq.symm), heq.symm⟩
      rcases hlower with hlower | ⟨hs, hlower⟩
      · rcases hupper with hupper | ⟨hs, hupper⟩
        · exact .inl ⟨hlower, hupper⟩
        · exact .inr ⟨hs, .inr hupper⟩
      · exact .inr ⟨hs, .inl hlower⟩
  · have hdense : IsDenseBelow (2 ^ 52) (exponentFor num den + 1) := ⟨rfl, by omega⟩
    rw [div_two_zpow_succ] at hlt herror
    rw [hcarry] at herror
    have hlow := (abs_le.1 herror).1
    push_cast at hlow
    rw [if_pos hdense]
    push_cast
    rcases (show (2 : ℚ) ^ 52 - 1 / 4 ≤ num / den / 2 ^ (exponentFor num den + 1) by
      linarith).lt_or_eq with hlower | hlower
    · exact .inl ⟨hlower, by linarith⟩
    · exact .inr ⟨by decide, .inl hlower.symm⟩

lemma Within.div_bounds (h : Within s e x) :
    (s - if IsDenseBelow s e then 1 / 4 else 1 / 2 : ℚ) ≤ x / 2 ^ e ∧ x / 2 ^ e ≤ s + 1 / 2 := by
  rw [le_div_iff₀ (two_zpow_pos e), div_le_iff₀ (two_zpow_pos e)]
  exact h.bounds

/-- Where the exponent fits, the significand is the nearest natural number. -/
lemma ofRatio_of_within_full (negative : Bool) (h : Canonical s e) (hnum : 0 < num)
    (hden : 0 < den) (hwithin : Within s e (num / den))
    (hfull : e = leastExponent ∨ 2 ^ 52 ≤ (num / den / 2 ^ e : ℚ)) :
    ofRatio negative num den = .finite negative s e := by
  obtain ⟨hlower, hupper⟩ := hwithin.div_bounds
  rw [within_iff_div] at hwithin
  set y : ℚ := num / den / 2 ^ e
  have hs : (s : ℚ) + 1 ≤ 2 ^ 53 := by exact_mod_cast h.lt
  have hhalf : (s : ℚ) - 1 / 2 ≤ s - if IsDenseBelow s e then 1 / 4 else 1 / 2 := by
    split_ifs <;> linarith
  have hexponent : exponentFor num den = e :=
    (fits_exponentFor hnum hden).unique (fits_iff_div.2 ⟨h.least_le, by linarith, hfull⟩)
  have hnearest : IsNearest s y := by
    refine ⟨abs_le.2 ⟨by linarith, by linarith⟩, fun htie => ?_⟩
    rcases hwithin with ⟨hlt, hlt'⟩ | ⟨heven, -⟩
    · have hstrict : |y - s| < 1 / 2 := abs_lt.2 ⟨by linarith, by linarith⟩
      exact absurd htie hstrict.ne
    · exact heven
  have hsteps : nearestSteps num den = s := by
    have hsteps := isNearest_nearestSteps num hden
    rw [hexponent] at hsteps
    exact hsteps.unique hnearest
  rw [ofRatio_eq negative hnum, hsteps, hexponent, if_pos h.lt, if_pos h.le_greatest]

/-- Below the least significand of 53 bits the exponent is one less, and the nearest natural number
is carried. -/
lemma ofRatio_of_within_dense (negative : Bool) (h : Canonical s e) (hnum : 0 < num)
    (hden : 0 < den) (hwithin : Within s e (num / den)) (hleast : e ≠ leastExponent)
    (hsmall : (num / den / 2 ^ e : ℚ) < 2 ^ 52) :
    ofRatio negative num den = .finite negative s e := by
  have hlower := hwithin.div_bounds.1
  set y : ℚ := num / den / 2 ^ e
  obtain rfl : s = 2 ^ 52 := by
    have hhalf : (s : ℚ) - 1 / 2 ≤ s - if IsDenseBelow s e then 1 / 4 else 1 / 2 := by
      split_ifs <;> linarith
    have hlt : (s : ℚ) < 2 ^ 52 + 1 := by linarith
    have hlt : s < 2 ^ 52 + 1 := by exact_mod_cast hlt
    exact le_antisymm (Nat.lt_succ_iff.1 hlt) (h.full.resolve_left hleast)
  have hdense : IsDenseBelow (2 ^ 52) e := ⟨rfl, lt_of_le_of_ne h.least_le hleast.symm⟩
  rw [if_pos hdense] at hlower
  push_cast at hlower
  have hdouble : (num / den / 2 ^ (e - 1) : ℚ) = 2 * y := by
    rw [div_two_zpow_succ, sub_add_cancel]
  have hexponent : exponentFor num den = e - 1 := by
    refine (fits_exponentFor hnum hden).unique
      (fits_iff_div.2 ⟨Int.le_sub_one_of_lt hdense.2, ?_, .inr ?_⟩) <;> rw [hdouble] <;> linarith
  have hnearest : IsNearest (2 ^ 53) (2 * y) := by
    refine ⟨abs_le.2 ⟨?_, ?_⟩, fun _ => by decide⟩ <;> push_cast <;> linarith
  have hsteps : nearestSteps num den = 2 ^ 53 := by
    have hsteps := isNearest_nearestSteps num hden
    rw [hexponent, hdouble] at hsteps
    exact hsteps.unique hnearest
  have hle := h.le_greatest
  rw [ofRatio_eq negative hnum, hsteps, hexponent, if_neg (lt_irrefl _), if_pos (by omega),
    sub_add_cancel]

/-- The numbers that round to a double are those of its interval. -/
theorem ofRatio_eq_finite_iff (negative : Bool) (h : Canonical s e) (hnum : 0 < num)
    (hden : 0 < den) :
    ofRatio negative num den = .finite negative s e ↔ Within s e (num / den) := by
  refine ⟨within_of_ofRatio hnum hden, fun hwithin => ?_⟩
  by_cases hfull : e = leastExponent ∨ 2 ^ 52 ≤ (num / den / 2 ^ e : ℚ)
  · exact ofRatio_of_within_full negative h hnum hden hwithin hfull
  · obtain ⟨hleast, hsmall⟩ := not_or.1 hfull
    exact ofRatio_of_within_dense negative h hnum hden hwithin hleast (not_le.1 hsmall)

/-- A number of the format rounds to itself. -/
theorem ofRatio_eq_of_value (negative : Bool) (h : Canonical s e) (hs : 0 < s) (hden : 0 < den)
    (hvalue : (num / den : ℚ) = value s e) : ofRatio negative num den = .finite negative s e := by
  have hnum : 0 < num := by
    by_contra hzero
    rw [Nat.eq_zero_of_not_pos hzero, Nat.cast_zero, zero_div] at hvalue
    exact (value_pos hs e).ne hvalue
  rw [ofRatio_eq_finite_iff negative h hnum hden, hvalue]
  exact within_value s e

end Ratio

end WordFields.Double
