import Mathlib.Tactic.IntervalCases
import WordFields.Number.Numeral
import WordFields.Proofs.Text.Blank

/-!
# Which texts are numerals

The numerals as a grammar (`Numeral.IsNumeral`): nothing at all, a spelling of infinity, the marker
of a radix with digits behind it, or a decimal numeral with its sign, its mantissa and its exponent.
Reading keeps to this grammar with two exceptions, both behind the marker of a radix: digits that
make a number of more than 64 bits are refused (`IsOverlong`), and a plus sign in front of the
digits is passed over (`IsPlussed`).
-/

namespace WordFields.Numeral

open Text

/-! ## Digits -/

/-- A digit of a radix up to 16, a letter in either case. -/
def IsDigitOf (radix : Nat) (c : Char) : Prop :=
  ∃ digit < radix, c = digit.digitChar ∨ c = digit.digitChar.toUpper

/-- The code of a character that has a value. -/
lemma toNat_of_digitValue? {c : Char} {digit : Nat} (h : digitValue? c = some digit) :
    c.toNat = 48 + digit ∧ digit < 10 ∨ c.toNat = 87 + digit ∧ 10 ≤ digit ∨
      c.toNat = 55 + digit ∧ 10 ≤ digit := by
  have hrange : ∀ low high : Char, (low ≤ c && c ≤ high) = true →
      low.toNat ≤ c.toNat ∧ c.toNat ≤ high.toNat := by
    intro low high hc
    simpa [Char.le_def, UInt32.le_iff_toNat_le] using hc
  rw [digitValue?] at h
  split_ifs at h with hdecimal hlower hupper
  · have hcode := hrange _ _ hdecimal
    simp at h hcode
    omega
  · have hcode := hrange _ _ hlower
    simp at h hcode
    omega
  · have hcode := hrange _ _ hupper
    simp at h hcode
    omega

/-- The digits of a radix are the characters with a value below it. -/
lemma isSome_digitOf?_iff {radix : Nat} (hradix : radix ≤ 16) {c : Char} :
    (digitOf? radix c).isSome = true ↔ IsDigitOf radix c := by
  constructor
  · intro h
    obtain ⟨digit, hdigit⟩ := Option.isSome_iff_exists.1 h
    obtain ⟨hvalue, hlt⟩ := Option.filter_eq_some_iff.1 hdigit
    rw [decide_eq_true_eq] at hlt
    have hsmall : digit < 16 := Nat.lt_of_lt_of_le hlt hradix
    refine ⟨digit, hlt, ?_⟩
    rcases toNat_of_digitValue? hvalue with ⟨hcode, hrange⟩ | ⟨hcode, hrange⟩ | ⟨hcode, hrange⟩
    all_goals
      rw [← Char.ofNat_toNat c, hcode]
      interval_cases digit <;> decide
  · rintro ⟨digit, hlt, hc⟩
    have hsmall : digit < 16 := Nat.lt_of_lt_of_le hlt hradix
    have hvalue : digitValue? c = some digit := by
      interval_cases digit <;> rcases hc with rfl | rfl <;> decide
    rw [digitOf?, hvalue]
    simpa using hlt

lemma isDigit_iff {c : Char} : isDigit c = true ↔ IsDigitOf 10 c := by
  rw [← isSome_digitOf?_iff (by decide)]
  constructor
  · intro h
    have hvalue : digitValue? c = some (c.toNat - 48) := if_pos h
    have hsmall : c.toNat - 48 < 10 := by
      have hcode := toNat_of_digitValue? hvalue
      have hle : c.toNat ≤ 57 := by
        rw [isDigit, Bool.and_eq_true, decide_eq_true_eq, decide_eq_true_eq] at h
        simpa [Char.le_def, UInt32.le_iff_toNat_le] using h.2
      omega
    simp [digitOf?, hvalue, hsmall]
  · intro h
    obtain ⟨digit, hdigit⟩ := Option.isSome_iff_exists.1 h
    obtain ⟨hvalue, hlt⟩ := Option.filter_eq_some_iff.1 hdigit
    rw [decide_eq_true_eq] at hlt
    have hcode := toNat_of_digitValue? hvalue
    have hrange : 48 ≤ c.toNat ∧ c.toNat ≤ 57 := by omega
    simpa [isDigit, Char.le_def, UInt32.le_iff_toNat_le] using hrange

/-- A row of digits, at least one. -/
def IsRow (radix : Nat) (text : List Char) : Prop :=
  text ≠ [] ∧ ∀ c ∈ text, IsDigitOf radix c

lemma isSome_readDigits?_iff {radix : Nat} (hradix : radix ≤ 16) {value : Nat} {text : List Char} :
    (readDigits? radix value text).isSome = true ↔ ∀ c ∈ text, IsDigitOf radix c := by
  induction text generalizing value with
  | nil => simp [readDigits?]
  | cons c text ih =>
    rw [readDigits?, List.forall_mem_cons, ← isSome_digitOf?_iff hradix]
    cases digitOf? radix c with
    | none => simp
    | some digit => simp [ih]

/-! ## The grammar -/

def IsSign (text : List Char) : Prop :=
  text = [] ∨ text = ['+'] ∨ text = ['-']

/-- Digits with an optional point and optional digits behind it, or a point and digits. -/
inductive IsMantissa : List Char → Prop
  | whole {digits : List Char} (row : IsRow 10 digits) : IsMantissa digits
  | mixed {digits fraction : List Char} (row : IsRow 10 digits)
      (isDigit : ∀ c ∈ fraction, IsDigitOf 10 c) : IsMantissa (digits ++ '.' :: fraction)
  | fraction {digits : List Char} (row : IsRow 10 digits) : IsMantissa ('.' :: digits)

/-- Nothing, or a mark, an optional sign and digits. -/
inductive IsExponent : List Char → Prop
  | absent : IsExponent []
  | present {mark : Char} {sign digits : List Char} (isMark : mark = 'e' ∨ mark = 'E')
      (isSign : IsSign sign) (row : IsRow 10 digits) : IsExponent (mark :: (sign ++ digits))

/-- A decimal numeral. -/
inductive IsDecimal : List Char → Prop
  | mk {sign mantissa exponent : List Char} (isSign : IsSign sign)
      (isMantissa : IsMantissa mantissa) (isExponent : IsExponent exponent) :
      IsDecimal (sign ++ (mantissa ++ exponent))

/-- The numerals, without blank characters around them. -/
inductive IsNumeral : List Char → Prop
  | blank : IsNumeral []
  | infinity {text : List Char}
      (mem : text ∈ ["Infinity", "+Infinity", "-Infinity"].map String.toList) : IsNumeral text
  | integer {marker : String} {radix : Nat} {digits : List Char}
      (mem : (marker, radix) ∈ radixMarkers) (row : IsRow radix digits) :
      IsNumeral (marker.toList ++ digits)
  | decimal {text : List Char} (isDecimal : IsDecimal text) : IsNumeral text

/-- Digits behind the marker of a radix that make a number of more than 64 bits. -/
def IsOverlong (text : List Char) : Prop :=
  ∃ marker radix digits n, (marker, radix) ∈ radixMarkers ∧ text = marker.toList ++ digits ∧
    readDigits? radix 0 digits = some n ∧ 2 ^ 64 ≤ n

/-- A plus sign between the marker of a radix and digits that make a number of at most 64 bits. -/
def IsPlussed (text : List Char) : Prop :=
  ∃ marker radix digits n, (marker, radix) ∈ radixMarkers ∧ text = marker.toList ++ '+' :: digits ∧
    digits ≠ [] ∧ readDigits? radix 0 digits = some n ∧ n < 2 ^ 64

/-! ## Reading decimal numerals -/

variable {text : List Char}

lemma IsRow.startsIn {digits : List Char} (h : IsRow 10 digits) (rest : List Char) :
    StartsIn (isDigit · = true) (digits ++ rest) := by
  obtain ⟨c, digits, rfl⟩ := List.exists_cons_of_ne_nil h.1
  exact startsIn_cons.2 (isDigit_iff.2 (h.2 c List.mem_cons_self))

lemma IsMantissa.startsIn {mantissa : List Char} (h : IsMantissa mantissa) (rest : List Char) :
    StartsIn (isDigit · = true) (mantissa ++ rest) ∨ StartsIn (· = '.') (mantissa ++ rest) := by
  cases h with
  | whole row => exact .inl (row.startsIn rest)
  | mixed row _ =>
    rw [List.append_assoc]
    exact .inl (row.startsIn _)
  | fraction row => exact .inr (startsIn_cons.2 rfl)

/-- An exponent does not continue a mantissa. -/
lemma IsExponent.startsIn {exponent : List Char} (h : IsExponent exponent) :
    StartsIn (fun c => isDigit c = false ∧ c ≠ '.') exponent := by
  cases h with
  | absent => exact startsIn_nil _
  | present isMark _ _ =>
    rw [startsIn_cons]
    rcases isMark with rfl | rfl <;> decide

/-- A sign is cut off where no other one is behind it. -/
lemma readSign_append {sign rest : List Char} (hsign : IsSign sign)
    (hrest : StartsIn (isDigit · = true) rest ∨ StartsIn (· = '.') rest) :
    (readSign (sign ++ rest)).2 = rest := by
  rcases hsign with rfl | rfl | rfl
  · have hne : ∀ c ∈ ['+', '-'], ∀ tail, rest ≠ c :: tail := by
      rintro c hc tail rfl
      rw [startsIn_cons, startsIn_cons] at hrest
      simp only [List.mem_cons, List.not_mem_nil, or_false] at hc
      rcases hc with rfl | rfl <;> revert hrest <;> decide
    rw [List.nil_append, readSign]
    · exact hne '-' (by simp)
    · exact hne '+' (by simp)
  · rfl
  · rfl

lemma exists_sign (text : List Char) : ∃ sign, IsSign sign ∧ text = sign ++ (readSign text).2 := by
  unfold readSign
  split
  · exact ⟨['-'], .inr (.inr rfl), rfl⟩
  · exact ⟨['+'], .inr (.inl rfl), rfl⟩
  · exact ⟨[], .inl rfl, rfl⟩

lemma isSome_readExponent?_iff : (readExponent? text).isSome = true ↔ IsExponent text := by
  cases text with
  | nil => exact iff_of_true rfl .absent
  | cons mark text =>
    have hread : (mark = 'e' ∨ mark = 'E') → ((readExponent? (mark :: text)).isSome = true ↔
        IsRow 10 (readSign text).2) := by
      intro hmark
      rw [readExponent?, if_pos hmark]
      rcases readSign text with ⟨negative, digits⟩
      cases hall : digits.isEmpty || !digits.all isDigit with
      | true =>
        refine iff_of_false (by simp [hall]) fun hrow => ?_
        simp [hrow.1] at hall
        obtain ⟨c, hc, hnot⟩ := hall
        rw [isDigit_iff.2 (hrow.2 c hc)] at hnot
        cases hnot
      | false =>
        refine iff_of_true (by simp [hall]) ?_
        simpa [IsRow, isDigit_iff] using hall
    constructor
    · intro h
      by_cases hmark : mark = 'e' ∨ mark = 'E'
      · obtain ⟨sign, hsign, htext⟩ := exists_sign text
        rw [htext]
        exact .present hmark hsign ((hread hmark).1 h)
      · rw [readExponent?, if_neg hmark] at h
        cases h
    · rintro ⟨⟩
      next sign digits hsign hrow hmark =>
        rw [hread hmark, readSign_append hsign (.inl ?_)]
        · exact hrow
        · have hstart := hrow.startsIn []
          rwa [List.append_nil] at hstart

/-- What the digits and the point of a mantissa leave of a text; `none` if there is no digit. -/
def afterMantissa? (text : List Char) : Option (List Char) :=
  let (fraction, rest) := readFraction (text.dropWhile isDigit)
  if (text.takeWhile isDigit).isEmpty && fraction.isEmpty then none else some rest

lemma isSome_decimal?_eq (text : List Char) :
    (decimal? text).isSome =
      ((afterMantissa? (readSign text).2).bind readExponent?).isSome := by
  rw [decimal?, afterMantissa?]
  rcases readSign text with ⟨negative, unsigned⟩
  rcases hfraction : readFraction (unsigned.dropWhile isDigit) with ⟨fraction, rest⟩
  simp only [hfraction]
  split <;> simp

lemma takeWhile_digits {digits rest : List Char} (hdigits : ∀ c ∈ digits, IsDigitOf 10 c)
    (hrest : StartsIn (isDigit · = false) rest) :
    (digits ++ rest).takeWhile isDigit = digits ∧ (digits ++ rest).dropWhile isDigit = rest := by
  have hall : ∀ c ∈ digits, isDigit c = true := fun c hc => isDigit_iff.2 (hdigits c hc)
  rw [List.takeWhile_append_of_pos hall, List.dropWhile_append_of_pos hall]
  cases rest with
  | nil => simp
  | cons c rest => simp [hrest c rfl]

/-- What is behind a mantissa is left, if it does not continue it. -/
lemma afterMantissa?_append {mantissa rest : List Char} (h : IsMantissa mantissa)
    (hrest : StartsIn (fun c => isDigit c = false ∧ c ≠ '.') rest) :
    afterMantissa? (mantissa ++ rest) = some rest := by
  have hdigit : StartsIn (isDigit · = false) rest := fun c hc => (hrest c hc).1
  have hpoint : ∀ text, rest ≠ '.' :: text := by
    rintro text rfl
    exact (startsIn_cons.1 hrest).2 rfl
  cases h with
  | whole row =>
    obtain ⟨htake, hdrop⟩ := takeWhile_digits row.2 hdigit
    have hfraction : readFraction rest = ([], rest) := by
      unfold readFraction
      split
      · exact absurd rfl (hpoint _)
      · rfl
    simp [afterMantissa?, htake, hdrop, hfraction, row.1]
  | @mixed digits fraction row hdigits =>
    have hstop : StartsIn (isDigit · = false) ('.' :: (fraction ++ rest)) :=
      startsIn_cons.2 (by decide)
    obtain ⟨htake, hdrop⟩ := takeWhile_digits row.2 hstop
    obtain ⟨htake', hdrop'⟩ := takeWhile_digits hdigits hdigit
    rw [List.append_assoc, List.cons_append]
    simp [afterMantissa?, htake, hdrop, readFraction, hdrop', row.1]
  | @fraction digits row =>
    obtain ⟨htake, hdrop⟩ := takeWhile_digits row.2 hdigit
    simp [afterMantissa?, readFraction, htake, hdrop, row.1, show isDigit '.' = false by decide]

lemma isDigitOf_of_mem_takeWhile {c : Char} (h : c ∈ text.takeWhile isDigit) : IsDigitOf 10 c :=
  isDigit_iff.1 (List.all_eq_true.1 List.all_takeWhile c h)

/-- What is taken away in front is a mantissa. -/
lemma exists_mantissa {rest : List Char} (h : afterMantissa? text = some rest) :
    ∃ mantissa, IsMantissa mantissa ∧ text = mantissa ++ rest := by
  rw [afterMantissa?, Option.ite_none_left_eq_some, Option.some.injEq, Bool.and_eq_true,
    List.isEmpty_iff, List.isEmpty_iff] at h
  obtain ⟨hdigits, hrest⟩ := h
  have hwhole : ∀ c ∈ text.takeWhile isDigit, IsDigitOf 10 c := fun _ => isDigitOf_of_mem_takeWhile
  rw [← List.takeWhile_append_dropWhile (p := isDigit) (l := text)]
  generalize text.takeWhile isDigit = digits at *
  by_cases hpoint : ∃ behind, text.dropWhile isDigit = '.' :: behind
  · obtain ⟨behind, hbehind⟩ := hpoint
    have hfraction : ∀ c ∈ behind.takeWhile isDigit, IsDigitOf 10 c := fun _ =>
      isDigitOf_of_mem_takeWhile
    rw [hbehind, readFraction] at hdigits hrest
    rw [hbehind, ← hrest, ← List.takeWhile_append_dropWhile (p := isDigit) (l := behind)]
    by_cases hnil : digits = []
    · refine ⟨'.' :: behind.takeWhile isDigit,
        .fraction ⟨fun h => hdigits ⟨hnil, h⟩, hfraction⟩, ?_⟩
      simp [hnil]
    · refine ⟨digits ++ '.' :: behind.takeWhile isDigit, .mixed ⟨hnil, hwhole⟩ hfraction, ?_⟩
      simp
  · have hnone : readFraction (text.dropWhile isDigit) = ([], text.dropWhile isDigit) := by
      unfold readFraction
      split
      next behind hbehind => exact absurd ⟨behind, hbehind⟩ hpoint
      next => rfl
    rw [hnone] at hdigits hrest
    exact ⟨digits, .whole ⟨fun h => hdigits ⟨h, rfl⟩, hwhole⟩, by rw [← hrest]⟩

/-- The decimal numerals that are read are those of the grammar. -/
lemma isSome_decimal?_iff : (decimal? text).isSome = true ↔ IsDecimal text := by
  rw [isSome_decimal?_eq]
  constructor
  · intro h
    obtain ⟨value, hvalue⟩ := Option.isSome_iff_exists.1 h
    obtain ⟨rest, hrest, hexponent⟩ := Option.bind_eq_some_iff.1 hvalue
    obtain ⟨mantissa, hmantissa, heq⟩ := exists_mantissa hrest
    obtain ⟨sign, hsign, htext⟩ := exists_sign text
    rw [htext, heq]
    exact .mk hsign hmantissa (isSome_readExponent?_iff.1 (by rw [hexponent]; rfl))
  · rintro ⟨hsign, hmantissa, hexponent⟩
    next sign mantissa exponent =>
      rw [readSign_append hsign (hmantissa.startsIn exponent),
        afterMantissa?_append hmantissa hexponent.startsIn]
      exact isSome_readExponent?_iff.2 hexponent

/-! ## Reading integers behind a marker -/

variable {marker : String} {radix : Nat} {digits : List Char}

lemma radix_le_of_mem (h : (marker, radix) ∈ radixMarkers) : radix ≤ 16 := by
  have hall : ∀ entry ∈ radixMarkers, entry.2 ≤ 16 := by decide
  exact hall _ h

/-- No marker begins another one. -/
lemma radixOf?_eq_some_iff :
    radixOf? text = some (radix, digits) ↔
      ∃ marker, (marker, radix) ∈ radixMarkers ∧ text = marker.toList ++ digits := by
  constructor
  · intro h
    obtain ⟨⟨marker, radix'⟩, hmem, hfound⟩ := List.exists_of_findSome?_eq_some h
    obtain ⟨rest, hrest, heq⟩ := Option.map_eq_some_iff.1 hfound
    cases heq
    exact ⟨marker, hmem, after?_eq_some_iff.1 hrest⟩
  · rintro ⟨marker, hmem, rfl⟩
    simp only [radixMarkers, List.mem_cons, Prod.mk.injEq, List.not_mem_nil, or_false] at hmem
    rcases hmem with ⟨rfl, rfl⟩ | ⟨rfl, rfl⟩ | ⟨rfl, rfl⟩ | ⟨rfl, rfl⟩ | ⟨rfl, rfl⟩ | ⟨rfl, rfl⟩ <;>
      rfl

lemma marked_unique {marker' : String} {radix' : Nat} {digits' : List Char}
    (h : (marker, radix) ∈ radixMarkers) (h' : (marker', radix') ∈ radixMarkers)
    (heq : marker.toList ++ digits = marker'.toList ++ digits') :
    radix = radix' ∧ digits = digits' := by
  have hfound : radixOf? (marker.toList ++ digits) = some (radix, digits) :=
    radixOf?_eq_some_iff.2 ⟨marker, h, rfl⟩
  rw [radixOf?_eq_some_iff.2 ⟨marker', h', heq⟩] at hfound
  cases hfound
  exact ⟨rfl, rfl⟩

/-- A text with the marker of a radix is a numeral only for its digits. -/
lemma isNumeral_marked_iff (h : (marker, radix) ∈ radixMarkers) :
    IsNumeral (marker.toList ++ digits) ↔ IsRow radix digits := by
  refine ⟨fun hnumeral => ?_, .integer h⟩
  have hfirst : ∃ c, marker.toList = ['0', c] ∧ decimal? (marker.toList ++ digits) = none := by
    simp only [radixMarkers, List.mem_cons, Prod.mk.injEq, List.not_mem_nil, or_false] at h
    rcases h with ⟨rfl, rfl⟩ | ⟨rfl, rfl⟩ | ⟨rfl, rfl⟩ | ⟨rfl, rfl⟩ | ⟨rfl, rfl⟩ | ⟨rfl, rfl⟩ <;>
      exact ⟨_, rfl, rfl⟩
  obtain ⟨c, hmarker, hdecimal⟩ := hfirst
  generalize htext : marker.toList ++ digits = text at *
  cases hnumeral with
  | blank => simp [hmarker] at htext
  | infinity mem =>
    have hhead : ∀ text ∈ ["Infinity", "+Infinity", "-Infinity"].map String.toList,
        text.head? ≠ some '0' := by decide
    refine absurd ?_ (hhead text mem)
    rw [← htext, hmarker]
    rfl
  | integer mem row =>
    obtain ⟨rfl, rfl⟩ := marked_unique h mem htext
    exact row
  | decimal isDecimal =>
    rw [isSome_decimal?_iff.symm, hdecimal] at isDecimal
    cases isDecimal

/-- A natural number of 64 bits is read from digits, perhaps with a plus sign in front. -/
lemma isSome_word?_iff (hradix : radix ≤ 16) :
    (word? radix digits).isSome = true ↔
      ∃ body n, (digits = body ∨ digits = '+' :: body) ∧ body ≠ [] ∧
        readDigits? radix 0 body = some n ∧ n < 2 ^ 64 := by
  have hbody : ∀ body : List Char,
      (if body.isEmpty then none
        else (readDigits? radix 0 body).filter (· < wordLimit)).isSome = true ↔
      ∃ n, body ≠ [] ∧ readDigits? radix 0 body = some n ∧ n < 2 ^ 64 := by
    intro body
    change _ ↔ ∃ n, body ≠ [] ∧ readDigits? radix 0 body = some n ∧ n < wordLimit
    cases body with
    | nil => simp
    | cons c body => cases readDigits? radix 0 (c :: body) <;> simp
  by_cases hplus : ∃ body, digits = '+' :: body
  · obtain ⟨body, rfl⟩ := hplus
    rw [word?, hbody]
    constructor
    · rintro ⟨n, hn⟩
      exact ⟨body, n, .inr rfl, hn⟩
    · rintro ⟨body', n, rfl | heq, hne, hread, hlt⟩
      · -- a plus sign is no digit
        have hall := (isSome_readDigits?_iff hradix).1 (by rw [hread]; rfl)
        have hplus := (isSome_digitOf?_iff hradix).2 (hall '+' List.mem_cons_self)
        cases hplus
      · cases heq
        exact ⟨n, hne, hread, hlt⟩
  · rw [word?, hbody]
    · constructor
      · rintro ⟨n, hn⟩
        exact ⟨digits, n, .inl rfl, hn⟩
      · rintro ⟨body, n, rfl | heq, hn⟩
        · exact ⟨n, hn⟩
        · exact absurd ⟨body, heq⟩ hplus
    · exact fun rest heq => hplus ⟨rest, heq⟩

lemma isRow_iff (hradix : radix ≤ 16) :
    IsRow radix digits ↔ digits ≠ [] ∧ ∃ n, readDigits? radix 0 digits = some n := by
  rw [IsRow, ← isSome_readDigits?_iff hradix, Option.isSome_iff_exists]

/-- Behind the marker of a radix, all digits are read but those of a number of more than 64 bits,
and a plus sign may be in front of those that are read. -/
lemma isSome_word?_marked_iff (h : (marker, radix) ∈ radixMarkers) :
    (word? radix digits).isSome = true ↔
      IsNumeral (marker.toList ++ digits) ∧ ¬ IsOverlong (marker.toList ++ digits) ∨
        IsPlussed (marker.toList ++ digits) := by
  have hradix := radix_le_of_mem h
  rw [isNumeral_marked_iff h, isRow_iff hradix, isSome_word?_iff hradix]
  constructor
  · rintro ⟨body, n, rfl | rfl, hne, hread, hlt⟩
    · refine .inl ⟨⟨hne, n, hread⟩, ?_⟩
      rintro ⟨marker', radix', digits', n', hmem, heq, hread', hle⟩
      obtain ⟨rfl, rfl⟩ := marked_unique h hmem heq
      rw [hread, Option.some.injEq] at hread'
      omega
    · exact .inr ⟨marker, radix, body, n, h, rfl, hne, hread, hlt⟩
  · rintro (⟨⟨hne, n, hread⟩, hoverlong⟩ | ⟨marker', radix', body, n, hmem, heq, hne, hread, hlt⟩)
    · refine ⟨digits, n, .inl rfl, hne, hread, Nat.lt_of_not_le fun hle => hoverlong ?_⟩
      exact ⟨marker, radix, digits, n, h, rfl, hread, hle⟩
    · obtain ⟨rfl, rfl⟩ := marked_unique h hmem heq
      exact ⟨body, n, .inr rfl, hne, hread, hlt⟩

/-! ## Reading numerals -/

lemma ofRatio_ne_nan (negative : Bool) (num den : Nat) :
    Double.ofRatio negative num den ≠ .nan := by
  simp only [Double.ofRatio, Double.zero]
  split_ifs <;> nofun

lemma ofDecimal_ne_nan (negative : Bool) (digits : Nat) (exponent : Int) :
    Double.ofDecimal negative digits exponent ≠ .nan := by
  simp only [Double.ofDecimal, Double.zero]
  split_ifs
  · nofun
  · nofun
  · nofun
  · exact ofRatio_ne_nan _ _ _

lemma ne_nan_of_decimal? {d : Double} (h : decimal? text = some d) : d ≠ .nan := by
  simp only [decimal?, Option.ite_none_left_eq_some, Option.map_eq_some_iff] at h
  obtain ⟨-, exponent, -, rfl⟩ := h
  exact ofDecimal_ne_nan _ _ _

/-- The exceptions are behind the marker of a radix. -/
lemma not_exceptional (h : radixOf? text = none) : ¬ IsOverlong text ∧ ¬ IsPlussed text := by
  have hnot : ∀ marker radix digits, (marker, radix) ∈ radixMarkers →
      text ≠ marker.toList ++ digits := by
    intro marker radix digits hmem heq
    rw [radixOf?_eq_some_iff.2 ⟨marker, hmem, heq⟩] at h
    cases h
  constructor
  · rintro ⟨marker, radix, digits, n, hmem, heq, -⟩
    exact hnot marker radix digits hmem heq
  · rintro ⟨marker, radix, digits, n, hmem, heq, -⟩
    exact hnot marker radix _ hmem heq

/-- A text without blank characters around it that is neither empty nor infinite is read behind the
marker of a radix or as a decimal numeral. -/
lemma toDouble_eq (hempty : trim text ≠ [])
    (hinfinity : trim text ∉ ["Infinity", "+Infinity", "-Infinity"].map String.toList) :
    toDouble text =
      match radixOf? (trim text) with
      | some (radix, digits) =>
        match word? radix digits with
        | some n => Double.ofInt n
        | none => .nan
      | none => (decimal? (trim text)).getD .nan := by
  simp only [List.map_cons, List.map_nil, List.mem_cons, List.not_mem_nil, or_false, not_or]
    at hinfinity
  rw [toDouble, if_neg (by simpa using hempty), if_neg (by tauto)]
  exact if_neg hinfinity.2.2

/-- A text reads as a number exactly if it is a numeral, blank characters around it aside: except
for too many digits behind the marker of a radix, which read as none, and for a plus sign there,
which reads as nothing. -/
theorem toDouble_ne_nan_iff (text : List Char) :
    toDouble text ≠ .nan ↔
      IsNumeral (trim text) ∧ ¬ IsOverlong (trim text) ∨ IsPlussed (trim text) := by
  by_cases hempty : trim text = []
  · have hread : toDouble text = Double.zero false := by rw [toDouble, if_pos (by simp [hempty])]
    rw [hempty, hread]
    exact iff_of_true nofun (.inl ⟨.blank, (not_exceptional rfl).1⟩)
  by_cases hinfinity : trim text ∈ ["Infinity", "+Infinity", "-Infinity"].map String.toList
  · have hread : toDouble text ≠ .nan ∧ radixOf? (trim text) = none := by
      simp only [List.map_cons, List.map_nil, List.mem_cons, List.not_mem_nil, or_false]
        at hinfinity
      rw [toDouble]
      rcases hinfinity with h | h | h <;> rw [h] <;> exact ⟨by decide, rfl⟩
    exact iff_of_true hread.1 (.inl ⟨.infinity hinfinity, (not_exceptional hread.2).1⟩)
  rw [toDouble_eq hempty hinfinity]
  cases hmarked : radixOf? (trim text) with
  | some found =>
    obtain ⟨marker, hmem, heq⟩ := radixOf?_eq_some_iff.1 hmarked
    rw [heq, ← isSome_word?_marked_iff hmem]
    cases hword : word? found.1 found.2 with
    | none => simp [hword]
    | some n =>
      simp only [hword]
      exact iff_of_true (ofRatio_ne_nan _ _ _) rfl
  | none =>
    obtain ⟨hoverlong, hplussed⟩ := not_exceptional hmarked
    have hnumeral : IsNumeral (trim text) ↔ IsDecimal (trim text) := by
      refine ⟨fun h => ?_, .decimal⟩
      generalize trim text = trimmed at *
      cases h with
      | blank => exact absurd rfl hempty
      | infinity mem => exact absurd mem hinfinity
      | integer mem _ =>
        rw [radixOf?_eq_some_iff.2 ⟨_, mem, rfl⟩] at hmarked
        cases hmarked
      | decimal isDecimal => exact isDecimal
    rw [or_iff_left hplussed, and_iff_left hoverlong, hnumeral, ← isSome_decimal?_iff]
    cases hdecimal : decimal? (trim text) with
    | none => simp
    | some d => exact iff_of_true (ne_nan_of_decimal? hdecimal) rfl

/-- Two texts for which reading does not keep to the grammar: a plus sign behind the marker of a
radix, and a digit too many there. -/
theorem not_toDouble_ne_nan_iff_isNumeral :
    (toDouble "0x+1F".toList ≠ .nan ∧ ¬ IsNumeral (trim "0x+1F".toList)) ∧
      toDouble "0x10000000000000000".toList = .nan ∧
        IsNumeral (trim "0x10000000000000000".toList) := by
  have hmem : ("0x", 16) ∈ radixMarkers := by decide
  have hdigits : readDigits? 16 0 "10000000000000000".toList = some (2 ^ 64) := by decide +kernel
  refine ⟨⟨by decide +kernel, fun h => ?_⟩, by decide +kernel, ?_⟩
  · have hrow : IsRow 16 "+1F".toList := (isNumeral_marked_iff hmem).1 h
    obtain ⟨-, n, hn⟩ := (isRow_iff (Nat.le_refl 16)).1 hrow
    revert hn
    simp [readDigits?, digitOf?, digitValue?]
  · exact .integer hmem ((isRow_iff (Nat.le_refl 16)).2 ⟨by decide, _, hdigits⟩)

end WordFields.Numeral
