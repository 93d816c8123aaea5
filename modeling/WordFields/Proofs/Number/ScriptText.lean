import WordFields.Proofs.Json.Number
import WordFields.Proofs.Number.Shortest

/-!
# The text that JavaScript gives a number

`String(x)` in JavaScript writes a finite number with the digits of a shortest decimal: around a
point from `10 ^ (-6)` up to `10 ^ 21`, zeros filling up a large number, and with an exponent
outside that range.  Both zeros are written `0`.  Every finite number has such a text, and
`Double.text` is one wherever it does not write an integer out (`isScriptText_text`).  A natural
number below `10 ^ 21` is the text of a decimal exactly if it is the number of that decimal
(`Decimal.text_eq_naturalText_iff`).
-/

namespace WordFields

lemma naturalText_injective {m n : ℕ} (h : naturalText m = naturalText n) : m = n := by
  rw [← Json.ofDigits_naturalText m, h, Json.ofDigits_naturalText]

/-- A power of ten appends zeros. -/
lemma naturalText_mul_ten_pow {m : ℕ} (hm : 0 < m) (k : ℕ) :
    naturalText (m * 10 ^ k) = naturalText m ++ List.replicate k '0' := by
  induction k with
  | zero => simp
  | succ k ih =>
    have hpos : 0 < m * 10 ^ k := Nat.mul_pos hm (Nat.pow_pos (by norm_num))
    calc
      naturalText (m * 10 ^ (k + 1)) = Nat.toDigits 10 (10 * (m * 10 ^ k) + 0) := by
        rw [naturalText]
        congr 1
        ring
      _ = naturalText (m * 10 ^ k) ++ ['0'] :=
        (Nat.toDigits_append_toDigits (by norm_num) hpos (by norm_num)).symm
      _ = naturalText m ++ List.replicate (k + 1) '0' := by
        rw [ih, List.append_assoc, List.replicate_succ']

lemma not_mem_naturalText {c : Char} (hc : Numeral.isDigit c = false) (n : ℕ) :
    c ∉ naturalText n := fun h =>
  Bool.false_ne_true (hc.symm.trans (Json.isDigit_of_mem_naturalText h))

namespace Decimal

/-- The text of a decimal: positional in the middle range, with an exponent outside. -/
def text (d : Decimal) : List Char :=
  if -6 ≤ d.leading ∧ d.leading < 21 then d.positionalText else d.scientificText

lemma positionalText_natCast {m : ℕ} (hm : 0 < m) (k : ℕ) :
    positionalText ⟨m, k⟩ = naturalText (m * 10 ^ k) := by
  rw [naturalText_mul_ten_pow hm, positionalText, if_pos (Int.natCast_nonneg k)]
  rfl

lemma point_mem_positionalText {d : Decimal} (h : d.exponent < 0) : '.' ∈ d.positionalText := by
  rw [positionalText, if_neg h.not_ge]
  simp only
  split_ifs <;> simp

lemma mark_mem_scientificText (d : Decimal) : 'e' ∈ d.scientificText := by
  simp [scientificText]

lemma leading_natCast_lt {m : ℕ} (hm : 0 < m) {k : ℕ} (h : m * 10 ^ k < 10 ^ 21) :
    leading ⟨m, k⟩ < 21 := by
  have hlow := (Double.ten_zpow_bounds hm k).1
  have hlt : (10 : ℚ) ^ (Double.decimalLength m + k - 1 : ℤ) < 10 ^ (21 : ℤ) := by
    refine hlow.trans_lt ?_
    exact_mod_cast h
  exact (zpow_lt_zpow_iff_right₀ (by norm_num)).1 hlt

/-- The digits of a natural number are the text of its decimals without a fraction, up to the size
where an exponent is written. -/
theorem text_eq_naturalText_iff {d : Decimal} (hd : 0 < d.digits) {w : ℕ} (hw : w < 10 ^ 21) :
    d.text = naturalText w ↔ ∃ k : ℕ, d.exponent = k ∧ d.digits * 10 ^ k = w := by
  obtain ⟨digits, exponent⟩ := d
  constructor
  · intro h
    rw [text] at h
    split_ifs at h with hrange
    · have hexponent : 0 ≤ exponent := by
        by_contra hneg
        exact not_mem_naturalText rfl w (h ▸ point_mem_positionalText (not_le.1 hneg))
      obtain ⟨k, rfl⟩ := Int.eq_ofNat_of_zero_le hexponent
      exact ⟨k, rfl, naturalText_injective ((positionalText_natCast hd k).symm.trans h)⟩
    · exact absurd (h ▸ mark_mem_scientificText _) (not_mem_naturalText rfl w)
  · rintro ⟨k, rfl, rfl⟩
    have hleading : -6 ≤ leading ⟨digits, k⟩ := by
      have hlength : 0 < (naturalText digits).length := Nat.length_toDigits_pos
      simp only [leading]
      omega
    rw [text, if_pos ⟨hleading, leading_natCast_lt hd hw⟩, positionalText_natCast hd]

lemma isDigit_or_eq_of_mem_positionalText {d : Decimal} {c : Char} (h : c ∈ d.positionalText) :
    Numeral.isDigit c = true ∨ c = '.' := by
  have hdigits {c : Char} (hc : c ∈ naturalText d.digits) : Numeral.isDigit c = true :=
    Json.isDigit_of_mem_naturalText hc
  have hzero : Numeral.isDigit '0' = true := rfl
  rw [positionalText] at h
  simp only at h
  split_ifs at h
  · rcases List.mem_append.1 h with hc | hc
    · exact .inl (hdigits hc)
    · exact .inl (List.eq_of_mem_replicate hc ▸ hzero)
  · simp only [List.mem_cons, List.mem_append] at h
    rcases h with rfl | rfl | hc | hc
    · exact .inl hzero
    · exact .inr rfl
    · exact .inl (List.eq_of_mem_replicate hc ▸ hzero)
    · exact .inl (hdigits hc)
  · rcases List.mem_append.1 h with hc | hc
    · exact .inl (hdigits (List.mem_of_mem_take hc))
    · rcases List.mem_cons.1 hc with rfl | hc
      · exact .inr rfl
      · exact .inl (hdigits (List.mem_of_mem_drop hc))

/-- The least text with an exponent is the one of a single digit. -/
theorem text_eq_limit_iff {d : Decimal} : d.text = "1e+21".toList ↔ d = ⟨1, 21⟩ := by
  obtain ⟨digits, exponent⟩ := d
  refine ⟨fun h => ?_, fun h => h ▸ by decide +kernel⟩
  rw [text] at h
  split_ifs at h
  · have hmark : 'e' ∈ positionalText ⟨digits, exponent⟩ := by
      rw [h]
      decide
    rcases isDigit_or_eq_of_mem_positionalText hmark with hdigit | heq
    · exact absurd hdigit (by decide)
    · exact absurd heq (by decide)
  · rw [scientificText] at h
    simp only at h
    have hone : naturalText digits = ['1'] := by
      obtain ⟨c, tail, htext, -⟩ := Json.exists_naturalText digits
      rw [htext] at h ⊢
      cases tail <;> simp_all
    obtain rfl : digits = 1 := naturalText_injective hone
    have hsign : ¬ leading ⟨1, exponent⟩ < 0 := fun hneg => by
      simp [hone, hneg] at h
    have hsize : naturalText (leading ⟨1, exponent⟩).natAbs = ['2', '1'] := by
      simpa [hone, hsign] using h
    have hleading : (leading ⟨1, exponent⟩).natAbs = 21 := naturalText_injective hsize
    rw [leading, hone] at hsign hleading
    simp only [List.length_cons, List.length_nil] at hsign hleading
    obtain rfl : exponent = 21 := by omega
    rfl

end Decimal

/-- A minus sign or nothing. -/
def signText (negative : Bool) : List Char :=
  if negative then ['-'] else []

/-- The texts that JavaScript's rules allow for a finite number.  They leave open which one of
several shortest decimals, all equally near, is written. -/
inductive Double.IsScriptText : Double → List Char → Prop
  | zero (negative : Bool) : IsScriptText (Double.zero negative) ['0']
  | nonzero {d : Decimal} {s : ℕ} {e : ℤ} (negative : Bool) (pos : 0 < s)
      (shortest : d.IsShortest s e) :
      IsScriptText (.finite negative s e) (signText negative ++ d.text)

namespace Double

lemma isScriptText_finite_iff {negative : Bool} {s : ℕ} {e : ℤ} (hs : 0 < s)
    {text : List Char} :
    IsScriptText (.finite negative s e) (signText negative ++ text) ↔
      ∃ d : Decimal, d.IsShortest s e ∧ d.text = text := by
  constructor
  · intro h
    generalize hfull : signText negative ++ text = full at h
    cases h with
    | zero => exact absurd hs (lt_irrefl 0)
    | nonzero _ _ shortest => exact ⟨_, shortest, (List.append_cancel_left hfull).symm⟩
  · rintro ⟨d, hd, rfl⟩
    exact .nonzero negative hs hd

/-- Every number of the format has a text. -/
theorem exists_isScriptText (negative : Bool) {s : ℕ} {e : ℤ} (h : Canonical s e) :
    ∃ text, IsScriptText (.finite negative s e) text := by
  rcases Nat.eq_zero_or_pos s with rfl | hs
  · obtain rfl : e = leastExponent := h.full.resolve_right (by norm_num)
    exact ⟨_, .zero negative⟩
  · exact ⟨_, .nonzero negative hs (isShortest_shortest h hs)⟩

/-- What is not written out as an integer is written as its shortest decimal. -/
lemma sizeText_eq_text_shortest {s : ℕ} {e : ℤ}
    (hlarge : ∀ w, natural? s e = some w → 10 ^ 21 ≤ w) : sizeText s e = (shortest s e).text := by
  unfold sizeText Decimal.text
  split
  · next w hfilter =>
    obtain ⟨hw, hlt⟩ := Option.filter_eq_some_iff.1 hfilter
    exact absurd (of_decide_eq_true hlt) (not_lt.2 (hlarge w hw))
  · rfl

/-- What is not written out as an integer is written as in JavaScript. -/
theorem isScriptText_text (negative : Bool) {s : ℕ} {e : ℤ} (h : Canonical s e)
    (hlarge : ∀ w, natural? s e = some w → 10 ^ 21 ≤ w) :
    IsScriptText (.finite negative s e) (text (.finite negative s e)) := by
  have hs : 0 < s := by
    by_contra hzero
    have hnatural : natural? s e = some 0 := by simp [natural?, Nat.eq_zero_of_not_pos hzero]
    exact absurd (hlarge 0 hnatural) (by norm_num)
  have htext : text (.finite negative s e) = signText negative ++ (shortest s e).text := by
    rw [← sizeText_eq_text_shortest hlarge]
    cases negative <;> simp [text, signText, hs.ne']
  rw [htext]
  exact .nonzero negative hs (isShortest_shortest h hs)

end Double

end WordFields
