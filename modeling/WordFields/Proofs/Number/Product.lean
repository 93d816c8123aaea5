import WordFields.Proofs.Number.Interval

/-!
# Products with powers of ten

The product of two doubles is the exact product, rounded (`exists_mul_eq`), and rounding depends on
the exact number and not on the ratio that stands for it (`ofRatio_congr`).  The powers of ten up to
`10 ^ 22` are doubles (`exists_tenPower_eq`), so a natural number of the format that is multiplied
with one of them is rounded once (`mul_tenPower`).
-/

namespace WordFields.Double

section

variable {num den num' den' : ℕ}

/-- Ratios that are equal round to the same number. -/
theorem ofRatio_congr (negative : Bool) (hnum : 0 < num) (hden : 0 < den) (hden' : 0 < den')
    (heq : (num / den : ℚ) = num' / den') (hlt : (num / den : ℚ) < 2 ^ (1023 : ℤ)) :
    ofRatio negative num den = ofRatio negative num' den' := by
  obtain ⟨s, e, h⟩ := exists_ofRatio_eq_finite negative hnum hden hlt
  have hcanonical := (ofRatio_spec hnum hden h).2.1
  have hnum' : 0 < num' := by
    by_contra hzero
    have hpos : (0 : ℚ) < num / den := by positivity
    rw [heq, Nat.eq_zero_of_not_pos hzero, Nat.cast_zero, zero_div] at hpos
    exact lt_irrefl _ hpos
  rw [h, eq_comm, ofRatio_eq_finite_iff negative hcanonical hnum' hden', ← heq]
  exact (ofRatio_eq_finite_iff negative hcanonical hnum hden).1 h

end

/-- Natural numbers of at most 23 digits are well within the range of the format. -/
lemma natCast_div_one_lt {n : ℕ} (h : n ≤ 10 ^ 22) : (n / (1 : ℕ) : ℚ) < 2 ^ (1023 : ℤ) := by
  rw [Nat.cast_one, div_one]
  calc
    (n : ℚ) ≤ (10 ^ 22 : ℕ) := by exact_mod_cast h
    _ < 2 ^ (74 : ℤ) := by norm_num
    _ ≤ 2 ^ (1023 : ℤ) := two_zpow_le.2 (by norm_num)

/-- A product is the exact one, rounded. -/
theorem exists_mul_eq (negative negative' : Bool) (s s' : ℕ) (e e' : ℤ) :
    ∃ num den : ℕ, 0 < den ∧ (num / den : ℚ) = value s e * value s' e' ∧
      (finite negative s e).mul (finite negative' s' e') =
        ofRatio (negative != negative') num den := by
  have hratio := scaleDown_div (s * s') 1 (-(e + e'))
  rw [Nat.cast_one, div_one, zpow_neg, div_inv_eq_mul, two_zpow_add] at hratio
  refine ⟨_, _, scaleDown_snd_pos Nat.one_pos (s * s') (-(e + e')), ?_, rfl⟩
  calc
    _ = ((s * s' : ℕ) : ℚ) * (2 ^ e * 2 ^ e') := hratio
    _ = value s e * value s' e' := by
      rw [value, value, Nat.cast_mul]
      ring

/-- The powers of ten that are numbers of the format. -/
lemma exists_tenPower_eq {k : ℕ} (hk : k ≤ 22) :
    ∃ s e, tenPower k = .finite false s e ∧ value s e = 10 ^ k := by
  have hpower : 0 < 10 ^ k := Nat.pow_pos (by norm_num)
  have hlt : ((10 ^ k : ℕ) / (1 : ℕ) : ℚ) < 2 ^ (1023 : ℤ) :=
    natCast_div_one_lt (Nat.pow_le_pow_right (by norm_num) hk)
  have heq : tenPower k = ofRatio false (10 ^ k) 1 := by
    rw [tenPower, ofDecimal_eq_ofRatio false Nat.one_pos]
    simp
  obtain ⟨s, e, h⟩ := exists_ofRatio_eq_finite false hpower Nat.one_pos hlt
  have hfive : 5 ^ k ≤ 2 ^ 53 := (Nat.pow_le_pow_right (by norm_num) hk).trans (by norm_num)
  have hself : ((10 ^ k : ℕ) / (1 : ℕ) : ℚ) = value (5 ^ k) k := by
    rw [value, zpow_natCast, Nat.cast_one, div_one]
    push_cast
    rw [← mul_pow]
    norm_num
  refine ⟨s, e, heq.trans h, ?_⟩
  have hleast : leastExponent ≤ (k : ℤ) := by
    change (-1074 : ℤ) ≤ k
    omega
  rw [value_eq_of_eq hpower Nat.one_pos h hfive hleast hself, ← hself]
  simp

/-- A natural number of the format times a power of ten is rounded once. -/
theorem mul_tenPower {s : ℕ} {e : ℤ} {n k : ℕ} (hvalue : value s e = n) (hn : 0 < n) (hk : k ≤ 22)
    (hle : n * 10 ^ k ≤ 10 ^ 22) :
    (finite false s e).mul (tenPower k) = ofRatio false (n * 10 ^ k) 1 := by
  obtain ⟨s', e', hpower, hvalue'⟩ := exists_tenPower_eq hk
  obtain ⟨num, den, hden, hproduct, hmul⟩ := exists_mul_eq false false s s' e e'
  have hratio : (num / den : ℚ) = (n * 10 ^ k : ℕ) / (1 : ℕ) := by
    rw [hproduct, hvalue, hvalue']
    simp
  have hlt : ((n * 10 ^ k : ℕ) / (1 : ℕ) : ℚ) < 2 ^ (1023 : ℤ) := natCast_div_one_lt hle
  rw [hpower, hmul]
  refine (ofRatio_congr false ?_ Nat.one_pos hden hratio.symm hlt).symm
  exact Nat.mul_pos hn (Nat.pow_pos (by norm_num))

end WordFields.Double
