import Mathlib.Algebra.Order.Field.Power
import Mathlib.Data.Rat.Cast.Order
import Mathlib.Tactic.FieldSimp
import Mathlib.Tactic.Linarith
import Mathlib.Tactic.NormNum
import Mathlib.Tactic.Positivity
import Mathlib.Tactic.Ring
import WordFields.Number.Double

/-!
# Rounding to double precision

`ofRatio` scales a ratio by a power of two and takes a nearest natural number as the significand.
Two facts say what that gives.  The result is canonical and at most half of its last place away
(`ofRatio_spec`), and rounding never crosses a number of the format (`value_le_of_le`,
`le_value_of_le`), so that numbers of the format are kept (`value_eq_of_eq`).  The shortcuts by
which `ofDecimal` avoids large powers of ten change no result (`ofDecimal_eq_ofRatio`).
-/

namespace WordFields.Double

/-- The number `significand * 2 ^ exponent`. -/
def value (s : ℕ) (e : ℤ) : ℚ :=
  s * 2 ^ e

/-- Whether a significand and an exponent are in the form that a number of the format has. -/
structure Canonical (s : ℕ) (e : ℤ) : Prop where
  lt : s < 2 ^ 53
  least_le : leastExponent ≤ e
  le_greatest : e ≤ greatestExponent
  full : e = leastExponent ∨ 2 ^ 52 ≤ s

lemma value_le_value {s t : ℕ} (h : s ≤ t) (e : ℤ) : value s e ≤ value t e :=
  mul_le_mul_of_nonneg_right (by exact_mod_cast h) (zpow_nonneg (by norm_num) e)

/-! ## The exponent of a ratio -/

/-- Whether an exponent gives a positive number a significand of 53 bits; the least exponent may
leave fewer. -/
structure Fits (x : ℚ) (e : ℤ) : Prop where
  least_le : leastExponent ≤ e
  lt : x < 2 ^ (53 + e)
  full : e = leastExponent ∨ 2 ^ (52 + e) ≤ x

lemma two_zpow_lt {a b : ℤ} : (2 : ℚ) ^ a < 2 ^ b ↔ a < b :=
  zpow_lt_zpow_iff_right₀ (by norm_num)

lemma two_zpow_le {a b : ℤ} : (2 : ℚ) ^ a ≤ 2 ^ b ↔ a ≤ b :=
  zpow_le_zpow_iff_right₀ (by norm_num)

lemma two_zpow_add (a b : ℤ) : (2 : ℚ) ^ (a + b) = 2 ^ a * 2 ^ b :=
  zpow_add₀ (by norm_num) a b

lemma two_zpow_pos (a : ℤ) : (0 : ℚ) < 2 ^ a := by
  positivity

lemma value_pos {s : ℕ} (hs : 0 < s) (e : ℤ) : 0 < value s e :=
  mul_pos (by exact_mod_cast hs) (two_zpow_pos e)

lemma Fits.le {x : ℚ} {e e' : ℤ} (h : Fits x e) (h' : Fits x e') : e ≤ e' := by
  rcases h.full with rfl | hfull
  · exact h'.least_le
  · have hlt : 52 + e < 53 + e' := two_zpow_lt.1 (hfull.trans_lt h'.lt)
    omega

/-- A number determines the exponent that fits it. -/
lemma Fits.unique {x : ℚ} {e e' : ℤ} (h : Fits x e) (h' : Fits x e') : e = e' :=
  le_antisymm (h.le h') (h'.le h)

lemma scaleDown_snd_pos {den : ℕ} (hden : 0 < den) (num : ℕ) (e : ℤ) :
    0 < (scaleDown num den e).2 :=
  Nat.mul_pos hden (Nat.two_pow_pos _)

lemma scaleDown_div (num den : ℕ) (e : ℤ) :
    ((scaleDown num den e).1 / (scaleDown num den e).2 : ℚ) = num / den / 2 ^ e := by
  obtain ⟨k, rfl | rfl⟩ := e.eq_nat_or_neg
  · simp [scaleDown, div_div]
  · simp [scaleDown, mul_div_right_comm]

/-- The lengths of a ratio's parts place it between two powers of two. -/
lemma two_zpow_log2_bounds {num den : ℕ} (hnum : 0 < num) (hden : 0 < den) :
    (2 : ℚ) ^ (num.log2 - den.log2 - 1 : ℤ) ≤ num / den ∧
      (num / den : ℚ) < 2 ^ (num.log2 - den.log2 + 1 : ℤ) := by
  have hlow (n : ℕ) (hn : 0 < n) : (2 : ℚ) ^ n.log2 ≤ n := by
    exact_mod_cast Nat.log2_self_le hn.ne'
  have hhigh (n : ℕ) : (n : ℚ) < 2 ^ (n.log2 + 1) := by
    exact_mod_cast Nat.lt_log2_self
  have hpos : (0 : ℚ) < den := by exact_mod_cast hden
  rw [le_div_iff₀ hpos, div_lt_iff₀ hpos]
  constructor
  · calc
      (2 : ℚ) ^ (num.log2 - den.log2 - 1 : ℤ) * den
          ≤ 2 ^ (num.log2 - den.log2 - 1 : ℤ) * 2 ^ (den.log2 + 1) :=
        mul_le_mul_of_nonneg_left (hhigh den).le (two_zpow_pos _).le
      _ = 2 ^ num.log2 := by
        rw [← zpow_natCast, ← two_zpow_add, ← zpow_natCast]
        congr 1
        push_cast
        ring
      _ ≤ num := hlow num hnum
  · calc
      (num : ℚ) < 2 ^ (num.log2 + 1) := hhigh num
      _ = 2 ^ (num.log2 - den.log2 + 1 : ℤ) * 2 ^ den.log2 := by
        rw [← zpow_natCast, ← zpow_natCast, ← two_zpow_add]
        congr 1
        push_cast
        ring
      _ ≤ 2 ^ (num.log2 - den.log2 + 1 : ℤ) * den :=
        mul_le_mul_of_nonneg_left (hlow den hden) (two_zpow_pos _).le

lemma fits_exponentFor {num den : ℕ} (hnum : 0 < num) (hden : 0 < den) :
    Fits (num / den) (exponentFor num den) := by
  obtain ⟨hlow, hhigh⟩ := two_zpow_log2_bounds hnum hden
  set low : ℤ := (num.log2 : ℤ) - den.log2 - 53 with hlowdef
  set scaled := scaleDown num den low with hscaled
  set fitting : ℤ := if scaled.1 / scaled.2 < 2 ^ 53 then low else low + 1 with hfitting
  have hexponent : exponentFor num den = max leastExponent fitting := rfl
  have hpos : 0 < scaled.2 := scaleDown_snd_pos hden num low
  -- the quotient of the scaled parts tells which of the two exponents in question it is
  have hquotient : scaled.1 / scaled.2 < 2 ^ 53 ↔ (num / den : ℚ) < 2 ^ (53 + low) := by
    have hcast : (scaled.1 : ℚ) / scaled.2 = num / den / 2 ^ low := scaleDown_div num den low
    rw [Nat.div_lt_iff_lt_mul hpos, two_zpow_add, ← div_lt_iff₀ (two_zpow_pos _), ← hcast,
      div_lt_iff₀ (by exact_mod_cast hpos)]
    exact_mod_cast Iff.rfl
  have hbounds : (2 : ℚ) ^ (52 + fitting) ≤ num / den ∧ (num / den : ℚ) < 2 ^ (53 + fitting) := by
    by_cases hsmall : scaled.1 / scaled.2 < 2 ^ 53
    · rw [hfitting, if_pos hsmall]
      exact ⟨(two_zpow_le.2 (by omega)).trans hlow, hquotient.1 hsmall⟩
    · rw [hfitting, if_neg hsmall]
      have hlarge := not_lt.1 (mt hquotient.2 hsmall)
      exact ⟨(two_zpow_le.2 (by omega)).trans hlarge, hhigh.trans_le (two_zpow_le.2 (by omega))⟩
  rw [hexponent]
  exact {
    least_le := le_max_left _ _
    lt := hbounds.2.trans_le (two_zpow_le.2 (by omega))
    full := by
      rcases max_choice leastExponent fitting with h | h
      · exact .inl h
      · rw [h]
        exact .inr hbounds.1 }

/-! ## The nearest natural number -/

/-- Different natural numbers are at least one apart. -/
lemma one_le_abs_sub {m n : ℕ} (h : m ≠ n) : (1 : ℚ) ≤ |(m : ℚ) - n| := by
  have hint : (1 : ℤ) ≤ |(m : ℤ) - n| := Int.one_le_abs (by omega)
  exact_mod_cast hint

lemma roundToEven_cases (n d : ℕ) :
    roundToEven n d = n / d ∧ 2 * (n % d) ≤ d ∨
      roundToEven n d = n / d + 1 ∧ d ≤ 2 * (n % d) := by
  have hparity := Nat.mod_two_eq_zero_or_one (n / d)
  simp only [roundToEven]
  split_ifs <;> omega

/-- A rounded quotient is at most half away from the quotient. -/
lemma roundToEven_bounds (n : ℕ) {d : ℕ} (hd : 0 < d) :
    2 * n ≤ (2 * roundToEven n d + 1) * d ∧ 2 * roundToEven n d * d ≤ 2 * n + d := by
  have hdiv : d * (n / d) + n % d = n := Nat.div_add_mod n d
  have hnonneg : 0 ≤ n % d := Nat.zero_le _
  have hlt : n % d < d := Nat.mod_lt n hd
  rcases roundToEven_cases n d with ⟨h, hmod⟩ | ⟨h, hmod⟩ <;> rw [h] <;> constructor <;> linarith

lemma abs_sub_roundToEven {n d : ℕ} (hd : 0 < d) :
    |(n / d : ℚ) - roundToEven n d| ≤ 1 / 2 := by
  obtain ⟨hupper, hlower⟩ := roundToEven_bounds n hd
  have hd : (0 : ℚ) < d := by exact_mod_cast hd
  have hupper : (2 * n : ℚ) ≤ (2 * roundToEven n d + 1) * d := by exact_mod_cast hupper
  have hlower : (2 * roundToEven n d * d : ℚ) ≤ 2 * n + d := by exact_mod_cast hlower
  rw [abs_le, le_sub_iff_add_le, sub_le_iff_le_add, le_div_iff₀ hd, div_le_iff₀ hd]
  constructor <;> linarith

/-- Rounding a quotient does not cross a natural number. -/
lemma roundToEven_le {n d k : ℕ} (hd : 0 < d) (h : (n / d : ℚ) ≤ k) : roundToEven n d ≤ k := by
  have herror := (abs_le.1 (abs_sub_roundToEven (n := n) hd)).1
  have hlt : (roundToEven n d : ℚ) < k + 1 := by linarith
  exact Nat.lt_succ_iff.1 (by exact_mod_cast hlt)

lemma le_roundToEven {n d k : ℕ} (hd : 0 < d) (h : (k : ℚ) ≤ n / d) : k ≤ roundToEven n d := by
  have herror := (abs_le.1 (abs_sub_roundToEven (n := n) hd)).2
  have hlt : (k : ℚ) < roundToEven n d + 1 := by linarith
  exact Nat.lt_succ_iff.1 (by exact_mod_cast hlt)

/-! ## The nearest number of the format -/

section Ratio

/-- The nearest number of steps of size `2 ^ exponentFor` to a ratio.  It can be `2 ^ 53`, which
is then carried into the next exponent. -/
def nearestSteps (num den : ℕ) : ℕ :=
  let scaled := scaleDown num den (exponentFor num den)
  roundToEven scaled.1 scaled.2

variable {num den : ℕ}

lemma ofRatio_eq (negative : Bool) (hnum : 0 < num) :
    ofRatio negative num den =
      if nearestSteps num den < 2 ^ 53 then
        if exponentFor num den ≤ greatestExponent then
          .finite negative (nearestSteps num den) (exponentFor num den)
        else .infinity negative
      else if exponentFor num den < greatestExponent then
        .finite negative (2 ^ 52) (exponentFor num den + 1)
      else .infinity negative := by
  rw [ofRatio, if_neg hnum.ne']
  rfl

lemma abs_sub_nearestSteps (num : ℕ) (hden : 0 < den) :
    |(num / den : ℚ) - value (nearestSteps num den) (exponentFor num den)| ≤
      2 ^ exponentFor num den / 2 := by
  set e := exponentFor num den
  have hstep : (0 : ℚ) < 2 ^ e := two_zpow_pos e
  have herror : |(num / den / 2 ^ e : ℚ) - nearestSteps num den| ≤ 1 / 2 := by
    rw [← scaleDown_div]
    exact abs_sub_roundToEven (scaleDown_snd_pos hden num e)
  calc
    |(num / den : ℚ) - value (nearestSteps num den) e|
        = |(num / den / 2 ^ e : ℚ) - nearestSteps num den| * 2 ^ e := by
      rw [value, ← abs_of_pos hstep, ← abs_mul, abs_of_pos hstep, sub_mul,
        div_mul_cancel₀ _ hstep.ne']
    _ ≤ 1 / 2 * 2 ^ e := mul_le_mul_of_nonneg_right herror hstep.le
    _ = 2 ^ e / 2 := by ring

/-- A natural number of steps on one side of a ratio is on that side of the rounded one. -/
lemma nearestSteps_le {k : ℕ} (hden : 0 < den)
    (h : (num / den : ℚ) ≤ value k (exponentFor num den)) :
    nearestSteps num den ≤ k := by
  refine roundToEven_le (scaleDown_snd_pos hden num _) ?_
  rwa [scaleDown_div, div_le_iff₀ (two_zpow_pos _)]

lemma le_nearestSteps {k : ℕ} (hden : 0 < den)
    (h : value k (exponentFor num den) ≤ (num / den : ℚ)) :
    k ≤ nearestSteps num den := by
  refine le_roundToEven (scaleDown_snd_pos hden num _) ?_
  rwa [scaleDown_div, le_div_iff₀ (two_zpow_pos _)]

lemma nearestSteps_le_two_pow (hnum : 0 < num) (hden : 0 < den) :
    nearestSteps num den ≤ 2 ^ 53 := by
  refine nearestSteps_le hden ?_
  have hlt := (fits_exponentFor hnum hden).lt
  rw [two_zpow_add] at hlt
  exact hlt.le

/-- Unless the exponent is the least one, the rounded number has all its 53 bits. -/
lemma exponentFor_eq_or_le_nearestSteps (hnum : 0 < num) (hden : 0 < den) :
    exponentFor num den = leastExponent ∨ 2 ^ 52 ≤ nearestSteps num den := by
  refine (fits_exponentFor hnum hden).full.imp_right fun hfull => le_nearestSteps hden ?_
  rw [two_zpow_add] at hfull
  exact hfull

variable {negative negative' : Bool} {s : ℕ} {e : ℤ}

/-- What a finite result is made of: the steps and their exponent, or the carry. -/
lemma ofRatio_eq_finite (hnum : 0 < num) (hden : 0 < den)
    (h : ofRatio negative num den = .finite negative' s e) :
    negative' = negative ∧ Canonical s e ∧
      (s = nearestSteps num den ∧ e = exponentFor num den ∨
        nearestSteps num den = 2 ^ 53 ∧ s = 2 ^ 52 ∧ e = exponentFor num den + 1) := by
  have hleast := (fits_exponentFor hnum hden).least_le
  have hfull := exponentFor_eq_or_le_nearestSteps hnum hden
  have hsteps := nearestSteps_le_two_pow hnum hden
  rw [ofRatio_eq negative hnum] at h
  split_ifs at h with hsmall hexponent hexponent <;> cases h
  · exact ⟨rfl, ⟨hsmall, hleast, hexponent, hfull⟩, .inl ⟨rfl, rfl⟩⟩
  · exact ⟨rfl, ⟨by norm_num, by omega, by omega, .inr le_rfl⟩,
      .inr ⟨by omega, rfl, rfl⟩⟩

/-- The sign takes no part in rounding. -/
lemma ofRatio_eq_finite_of_sign (negative' : Bool)
    (h : ofRatio negative num den = .finite negative s e) :
    ofRatio negative' num den = .finite negative' s e := by
  rcases Nat.eq_zero_or_pos num with rfl | hnum
  · cases h
    rfl
  · rw [ofRatio_eq _ hnum] at h ⊢
    split_ifs at h ⊢ <;> cases h <;> rfl

/-- The carry changes the form and not the value. -/
lemma value_of_ofRatio_eq_finite (hnum : 0 < num) (hden : 0 < den)
    (h : ofRatio negative num den = .finite negative' s e) :
    value s e = value (nearestSteps num den) (exponentFor num den) := by
  obtain ⟨rfl, rfl⟩ | ⟨hcarry, rfl, rfl⟩ := (ofRatio_eq_finite hnum hden h).2.2
  · rfl
  · rw [hcarry, value, value, two_zpow_add]
    push_cast
    ring

/-- A finite result is canonical and at most half of its last place away. -/
theorem ofRatio_spec (hnum : 0 < num) (hden : 0 < den)
    (h : ofRatio negative num den = .finite negative' s e) :
    negative' = negative ∧ Canonical s e ∧ |(num / den : ℚ) - value s e| ≤ 2 ^ e / 2 := by
  obtain ⟨hsign, hcanonical, hcases⟩ := ofRatio_eq_finite hnum hden h
  refine ⟨hsign, hcanonical, ?_⟩
  have hle : (2 : ℚ) ^ exponentFor num den ≤ 2 ^ e := two_zpow_le.2 (by omega)
  rw [value_of_ofRatio_eq_finite hnum hden h]
  exact (abs_sub_nearestSteps num hden).trans (by linarith)

/-- A number with a coarser step is a number of the finer steps. -/
lemma value_eq_of_le (t : ℕ) {e u : ℤ} (h : e ≤ u) :
    value t u = value (t * 2 ^ (u - e).toNat) e := by
  have hexponent : ((u - e).toNat : ℤ) + e = u := by omega
  rw [value, value, Nat.cast_mul, Nat.cast_pow, Nat.cast_ofNat, mul_assoc, ← zpow_natCast,
    ← two_zpow_add, hexponent]

/-- A number with a finer step is at most the least one with 53 bits. -/
lemma value_le_of_lt {t : ℕ} (ht : t ≤ 2 ^ 53) {e u : ℤ} (h : u < e) :
    value t u ≤ value (2 ^ 52) e := by
  calc
    value t u ≤ value (2 ^ 53) u := value_le_value ht u
    _ = 2 ^ (53 + u) := by rw [value, two_zpow_add]; norm_num
    _ ≤ 2 ^ (52 + e) := two_zpow_le.2 (by omega)
    _ = value (2 ^ 52) e := by rw [value, two_zpow_add]; norm_num

section Crossing

variable (hnum : 0 < num) (hden : 0 < den)
  (h : ofRatio negative num den = .finite negative' s e)
  {t : ℕ} {u : ℤ} (ht : t ≤ 2 ^ 53) (hu : leastExponent ≤ u)

include hnum hden h ht hu

/-- A rounded number is not above a number of the format unless the number itself is. -/
theorem value_le_of_le (hle : (num / den : ℚ) ≤ value t u) : value s e ≤ value t u := by
  rw [value_of_ofRatio_eq_finite hnum hden h]
  rcases le_or_gt (exponentFor num den) u with hexponent | hexponent
  · rw [value_eq_of_le t hexponent] at hle ⊢
    exact value_le_value (nearestSteps_le hden hle) _
  · have hleast : exponentFor num den ≠ leastExponent := by omega
    have hfull := (fits_exponentFor hnum hden).full.resolve_left hleast
    have hpower : value (2 ^ 52) (exponentFor num den) = 2 ^ (52 + exponentFor num den) := by
      rw [value, two_zpow_add]
      norm_num
    calc
      value (nearestSteps num den) (exponentFor num den)
          ≤ value (2 ^ 52) (exponentFor num den) :=
        value_le_value (nearestSteps_le hden (hle.trans (value_le_of_lt ht hexponent))) _
      _ ≤ num / den := hpower ▸ hfull
      _ ≤ value t u := hle

/-- A rounded number is not below a number of the format unless the number itself is. -/
theorem le_value_of_le (hle : value t u ≤ (num / den : ℚ)) : value t u ≤ value s e := by
  rw [value_of_ofRatio_eq_finite hnum hden h]
  rcases le_or_gt (exponentFor num den) u with hexponent | hexponent
  · rw [value_eq_of_le t hexponent] at hle ⊢
    exact value_le_value (le_nearestSteps hden hle) _
  · have hleast : exponentFor num den ≠ leastExponent := by omega
    have hfull := (exponentFor_eq_or_le_nearestSteps hnum hden).resolve_left hleast
    exact (value_le_of_lt ht hexponent).trans (value_le_value hfull _)

/-- Numbers of the format are kept. -/
theorem value_eq_of_eq (heq : (num / den : ℚ) = value t u) : value s e = value t u :=
  le_antisymm (value_le_of_le hnum hden h ht hu heq.le) (le_value_of_le hnum hden h ht hu heq.ge)

end Crossing

lemma Canonical.fits (h : Canonical s e) : Fits (value s e) e where
  least_le := h.least_le
  lt := by
    rw [value, two_zpow_add]
    refine mul_lt_mul_of_pos_right ?_ (two_zpow_pos e)
    exact_mod_cast h.lt
  full := by
    refine h.full.imp_right fun hfull => ?_
    rw [value, two_zpow_add]
    refine mul_le_mul_of_nonneg_right ?_ (two_zpow_pos e).le
    exact_mod_cast hfull

/-- A number of the format has one canonical form. -/
theorem Canonical.eq_of_value_eq {s' : ℕ} {e' : ℤ} (h : Canonical s e) (h' : Canonical s' e')
    (hvalue : value s e = value s' e') : s = s' ∧ e = e' := by
  obtain rfl : e = e' := h.fits.unique (hvalue ▸ h'.fits)
  have hcast : (s : ℚ) = s' := mul_right_cancel₀ (two_zpow_pos e).ne' hvalue
  exact ⟨by exact_mod_cast hcast, rfl⟩

/-- Numbers well within the range of the format are rounded to a finite one. -/
theorem exists_ofRatio_eq_finite (negative : Bool) (hnum : 0 < num) (hden : 0 < den)
    (h : (num / den : ℚ) < 2 ^ (1023 : ℤ)) :
    ∃ s e, ofRatio negative num den = .finite negative s e := by
  have hexponent : exponentFor num den < greatestExponent := by
    rcases (fits_exponentFor hnum hden).full with hleast | hfull
    · rw [hleast]
      decide
    · have hlt := two_zpow_lt.1 (hfull.trans_lt h)
      change _ < (971 : ℤ)
      omega
  rw [ofRatio_eq negative hnum, if_pos hexponent.le, if_pos hexponent]
  split_ifs
  · exact ⟨_, _, rfl⟩
  · exact ⟨_, _, rfl⟩

lemma ofRatio_eq_infinity (negative : Bool) (hnum : 0 < num) (hden : 0 < den)
    (h : 2 ^ (1024 : ℤ) ≤ (num / den : ℚ)) : ofRatio negative num den = .infinity negative := by
  have hexponent : greatestExponent < exponentFor num den := by
    have hlt := two_zpow_lt.1 (h.trans_lt (fits_exponentFor hnum hden).lt)
    change (971 : ℤ) < _
    omega
  rw [ofRatio_eq negative hnum, if_neg hexponent.not_ge, if_neg hexponent.not_gt, ite_self]

lemma ofRatio_eq_zero (negative : Bool) (hnum : 0 < num) (hden : 0 < den)
    (h : (num / den : ℚ) < 2 ^ (-1075 : ℤ)) : ofRatio negative num den = zero negative := by
  have hexponent : exponentFor num den = leastExponent := by
    refine (fits_exponentFor hnum hden).full.resolve_right fun hfull => ?_
    have hleast := (fits_exponentFor hnum hden).least_le
    have hlt := two_zpow_lt.1 (hfull.trans_lt h)
    simp only [leastExponent] at hleast
    omega
  have hsteps : nearestSteps num den = 0 := by
    have herror := (abs_le.1 (abs_sub_nearestSteps num hden)).1
    have hhalf : (2 : ℚ) ^ (-1075 : ℤ) = 2 ^ leastExponent / 2 := by
      rw [show (-1075 : ℤ) = leastExponent + -1 from rfl, two_zpow_add, zpow_neg_one,
        div_eq_mul_inv]
    rw [hexponent, value] at herror
    have hlt : (nearestSteps num den : ℚ) * 2 ^ leastExponent < 1 * 2 ^ leastExponent := by
      linarith
    exact Nat.lt_one_iff.1 (by exact_mod_cast lt_of_mul_lt_mul_right hlt (two_zpow_pos _).le)
  rw [ofRatio_eq negative hnum, hsteps, hexponent]
  rfl

end Ratio

/-! ## Decimals -/

lemma lt_ten_pow_decimalLength (n : ℕ) : n < 10 ^ decimalLength n :=
  (Nat.length_toDigits_le_iff (by norm_num) Nat.length_toDigits_pos).1 le_rfl

lemma ten_pow_le_of_lt_decimalLength {n k : ℕ} (hn : 0 < n) (h : k < decimalLength n) :
    10 ^ k ≤ n := by
  rcases Nat.eq_zero_or_pos k with rfl | hk
  · exact hn
  · exact not_lt.1 fun hlt =>
      h.not_ge ((Nat.length_toDigits_le_iff (by norm_num) hk).2 hlt)

lemma decimalLength_pos (n : ℕ) : 0 < decimalLength n :=
  Nat.length_toDigits_pos

lemma ten_zpow_pos (k : ℤ) : (0 : ℚ) < 10 ^ k := by
  positivity

lemma ten_zpow_add (a b : ℤ) : (10 : ℚ) ^ (a + b) = 10 ^ a * 10 ^ b :=
  zpow_add₀ (by norm_num) a b

lemma ten_zpow_le {a b : ℤ} (h : a ≤ b) : (10 : ℚ) ^ a ≤ 10 ^ b :=
  zpow_le_zpow_right₀ (by norm_num) h

/-- The ratio that stands for `digits * 10 ^ exponent`. -/
lemma decimal_div (digits : ℕ) (k : ℤ) :
    ((digits * Nat.pow 10 k.toNat : ℕ) / (Nat.pow 10 (-k).toNat : ℕ) : ℚ) = digits * 10 ^ k := by
  obtain ⟨n, rfl | rfl⟩ := k.eq_nat_or_neg
  · simp
  · simp [div_eq_mul_inv]

/-- The length of a numeral places it between two powers of ten. -/
lemma ten_zpow_bounds {digits : ℕ} (hdigits : 0 < digits) (k : ℤ) :
    (10 : ℚ) ^ (decimalLength digits + k - 1) ≤ digits * 10 ^ k ∧
      (digits * 10 ^ k : ℚ) < 10 ^ (decimalLength digits + k) := by
  have hpos := ten_zpow_pos k
  have hlow : (10 : ℚ) ^ (decimalLength digits - 1 : ℤ) ≤ digits := by
    have hle := ten_pow_le_of_lt_decimalLength hdigits
      (Nat.sub_one_lt (decimalLength_pos digits).ne')
    rw [← Nat.cast_one, ← Nat.cast_sub (decimalLength_pos digits), zpow_natCast]
    exact_mod_cast hle
  have hhigh : (digits : ℚ) < 10 ^ (decimalLength digits : ℤ) := by
    rw [zpow_natCast]
    exact_mod_cast lt_ten_pow_decimalLength digits
  rw [add_sub_right_comm, ten_zpow_add, ten_zpow_add]
  exact ⟨mul_le_mul_of_nonneg_right hlow hpos.le, mul_lt_mul_of_pos_right hhigh hpos⟩

lemma two_zpow_le_ten_zpow : (2 : ℚ) ^ (1024 : ℤ) ≤ 10 ^ (309 : ℤ) := by
  have hle : 2 ^ 1024 ≤ 10 ^ 309 := by decide +kernel
  exact_mod_cast hle

lemma ten_zpow_le_two_zpow : (10 : ℚ) ^ (-324 : ℤ) ≤ 2 ^ (-1075 : ℤ) := by
  have hle : 2 ^ 1075 ≤ 10 ^ 324 := by decide +kernel
  rw [zpow_neg, zpow_neg]
  exact inv_anti₀ (two_zpow_pos _) (by exact_mod_cast hle)

/-- Numerals that are settled by their length are settled as rounding would settle them. -/
theorem ofDecimal_eq_ofRatio (negative : Bool) {digits : ℕ} (hdigits : 0 < digits) (k : ℤ) :
    ofDecimal negative digits k =
      ofRatio negative (digits * Nat.pow 10 k.toNat) (Nat.pow 10 (-k).toNat) := by
  obtain ⟨hlow, hhigh⟩ := ten_zpow_bounds hdigits k
  have hnum : 0 < digits * Nat.pow 10 k.toNat := Nat.mul_pos hdigits (Nat.pow_pos (by norm_num))
  have hden : 0 < Nat.pow 10 (-k).toNat := Nat.pow_pos (by norm_num)
  simp only [ofDecimal, if_neg hdigits.ne']
  split_ifs with hlong hshort
  · refine (ofRatio_eq_infinity negative hnum hden ?_).symm
    rw [decimal_div]
    calc
      (2 : ℚ) ^ (1024 : ℤ) ≤ 10 ^ (309 : ℤ) := two_zpow_le_ten_zpow
      _ ≤ 10 ^ (decimalLength digits + k - 1) := ten_zpow_le (by omega)
      _ ≤ digits * 10 ^ k := hlow
  · refine (ofRatio_eq_zero negative hnum hden ?_).symm
    rw [decimal_div]
    calc
      (digits * 10 ^ k : ℚ) < 10 ^ (decimalLength digits + k) := hhigh
      _ ≤ 10 ^ (-324 : ℤ) := ten_zpow_le (by omega)
      _ ≤ 2 ^ (-1075 : ℤ) := ten_zpow_le_two_zpow
  · rfl

/-- A numeral without an exponent is an integer. -/
theorem ofDecimal_zero (negative : Bool) (n : ℕ) :
    ofDecimal negative n 0 = ofRatio negative n 1 := by
  rcases Nat.eq_zero_or_pos n with rfl | hn
  · rfl
  · rw [ofDecimal_eq_ofRatio negative hn]
    exact congrArg (ofRatio negative · 1) (Nat.mul_one n)

end WordFields.Double
