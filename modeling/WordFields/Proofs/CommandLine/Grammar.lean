import Mathlib.Data.List.Nodup
import Mathlib.Data.List.TakeWhile
import WordFields.CommandLine.Argument

/-!
# The grammar of command lines

`Spells` says which words spell which arguments, form by form: a flag by its long name, a value in
the word of its option or in the next one, letters put together in one word, positional words, and
anything behind the word `--`.  A request such as `--help` has no place in it, since it ends the
reading of a command line.

Reading is what the grammar says (`readAll?_eq_some_iff`), for options that differ from each other
in name and letter: words are read as arguments exactly if they spell them and no option is given
twice.
-/

namespace WordFields.CommandLine

/-! ## What words spell -/

namespace OptionSpec

/-- Whether an option has values and takes a given one. -/
def Takes (spec : OptionSpec) (value : String) : Prop :=
  match spec.kind with
  | .text => True
  | .choice values => value ∈ values
  | .flag => False
  | .request => False

/-- Options that can be told apart. -/
structure Distinct (specs : List OptionSpec) : Prop where
  name_injective : ∀ spec ∈ specs, ∀ other ∈ specs, spec.name = other.name → spec = other
  letter_injective : ∀ spec ∈ specs, ∀ other ∈ specs,
    spec.letter ≠ none → spec.letter = other.letter → spec = other
  name_plain : ∀ spec ∈ specs, spec.name.toList ≠ [] ∧ '=' ∉ spec.name.toList

end OptionSpec

/-- The letters of a word, the words after it that belong to them, and the arguments that they
spell. -/
inductive SpellsLetters (specs : List OptionSpec) : List Char → List String → List Argument → Prop
  | done : SpellsLetters specs [] [] []
  | flag {spec : OptionSpec} {c : Char} {text : List Char} {next : List String}
      {arguments : List Argument} (known : spec ∈ specs) (letter : spec.letter = some c)
      (isFlag : spec.kind = .flag) (rest : SpellsLetters specs text next arguments) :
      SpellsLetters specs (c :: text) next (.flag spec.name :: arguments)
  /-- The value follows the letter, perhaps behind an equals sign. -/
  | joined {spec : OptionSpec} {c : Char} {text : List Char} {value : String}
      (known : spec ∈ specs) (letter : spec.letter = some c) (takes : spec.Takes value)
      (isValue : text = '=' :: value.toList ∨
        text = value.toList ∧ text ≠ [] ∧ text.head? ≠ some '=') :
      SpellsLetters specs (c :: text) [] [.valued spec.name value]
  | next {spec : OptionSpec} {c : Char} {value : String} (known : spec ∈ specs)
      (letter : spec.letter = some c) (takes : spec.Takes value)
      (isPlain : looksLikeOption value = false) :
      SpellsLetters specs [c] [value] [.valued spec.name value]

/-- A word, the words after it that belong to it, and the arguments that they spell. -/
inductive SpellsWord (specs : List OptionSpec) : String → List String → List Argument → Prop
  | positional {word : String} (isPlain : looksLikeOption word = false) :
      SpellsWord specs word [] [.positional word]
  | flag {word : String} {spec : OptionSpec} (known : spec ∈ specs) (isFlag : spec.kind = .flag)
      (spelling : word.toList = '-' :: '-' :: spec.name.toList) :
      SpellsWord specs word [] [.flag spec.name]
  | joined {word : String} {spec : OptionSpec} {value : String} (known : spec ∈ specs)
      (takes : spec.Takes value)
      (spelling : word.toList = '-' :: '-' :: (spec.name.toList ++ '=' :: value.toList)) :
      SpellsWord specs word [] [.valued spec.name value]
  | next {word : String} {spec : OptionSpec} {value : String} (known : spec ∈ specs)
      (takes : spec.Takes value) (isPlain : looksLikeOption value = false)
      (spelling : word.toList = '-' :: '-' :: spec.name.toList) :
      SpellsWord specs word [value] [.valued spec.name value]
  | letters {word : String} {c : Char} {text : List Char} {next : List String}
      {arguments : List Argument} (spelling : word.toList = '-' :: c :: text) (isLetter : c ≠ '-')
      (spells : SpellsLetters specs (c :: text) next arguments) :
      SpellsWord specs word next arguments

/-- Words and the arguments that they spell. -/
inductive Spells (specs : List OptionSpec) : List String → List Argument → Prop
  | done : Spells specs [] []
  /-- Behind two hyphens every word is positional. -/
  | hyphens (words : List String) : Spells specs ("--" :: words) (words.map .positional)
  | word {word : String} {next words : List String} {arguments rest : List Argument}
      (first : SpellsWord specs word next arguments) (others : Spells specs words rest) :
      Spells specs (word :: (next ++ words)) (arguments ++ rest)

/-- Whether none of some arguments is a request. -/
def NoRequest (specs : List OptionSpec) (arguments : List Argument) : Prop :=
  ∀ spec ∈ specs, spec.kind = .request → .flag spec.name ∉ arguments

/-- Whether no option is given twice among some arguments and no more than one of them is
positional. -/
def Apart (arguments : List Argument) : Prop :=
  (arguments.map Argument.name?).Nodup

/-! ## Options -/

/-- A word is taken as an option if there is something behind its hyphen. -/
lemma looksLikeOption_iff {word : String} :
    looksLikeOption word = true ↔ ∃ c text, word.toList = '-' :: c :: text := by
  have hhyphen : word = "-" ↔ word.toList = ['-'] := by
    rw [← String.toList_inj]
    rfl
  rw [looksLikeOption, Bool.and_eq_true, bne_iff_ne, ne_eq, hhyphen]
  cases word.toList with
  | nil => simp
  | cons c text => cases text <;> simp

lemma find?_eq_some_iff_of_unique {α : Type} {test : α → Bool} {l : List α} {a : α}
    (hunique : ∀ b ∈ l, test b = true → test a = true → b = a) (hmem : test a = true → a ∈ l) :
    l.find? test = some a ↔ test a = true := by
  constructor
  · exact List.find?_some
  · intro ha
    have hsome : (l.find? test).isSome := List.find?_isSome.2 ⟨a, hmem ha, ha⟩
    obtain ⟨b, hb⟩ := Option.isSome_iff_exists.1 hsome
    rw [hb, hunique b (List.mem_of_find?_eq_some hb) (List.find?_some hb) ha]

namespace OptionSpec

variable {specs : List OptionSpec} {spec : OptionSpec} {rest rest' : List String}
  {arguments : List Argument}

lemma Distinct.find?_name (h : Distinct specs) (hknown : spec ∈ specs) :
    specs.find? (fun other => other.name == spec.name) = some spec :=
  (find?_eq_some_iff_of_unique
    (fun other hother heq _ => h.name_injective other hother spec hknown (by simpa using heq))
    fun _ => hknown).2 (by simp)

lemma Distinct.find?_letter (h : Distinct specs) (hknown : spec ∈ specs) {c : Char}
    (hletter : spec.letter = some c) :
    specs.find? (fun other => other.letter == some c) = some spec := by
  refine (find?_eq_some_iff_of_unique (fun other hother heq _ => ?_) fun _ => hknown).2
    (by simpa using hletter)
  have hother' : other.letter = some c := by simpa using heq
  exact h.letter_injective other hother spec hknown (by simp [hother']) (hother'.trans hletter.symm)

lemma Distinct.ne_equals (h : Distinct specs) (hknown : spec ∈ specs) :
    ∀ c ∈ spec.name.toList, decide (c ≠ '=') = true := fun _ hc =>
  decide_eq_true fun heq => (h.name_plain spec hknown).2 (heq ▸ hc)

lemma withValue?_eq_some_iff {value : String} :
    spec.withValue? value rest = some (arguments, rest') ↔
      spec.Takes value ∧ arguments = [.valued spec.name value] ∧ rest' = rest := by
  unfold withValue? Takes
  cases spec.kind <;> simp [eq_comm]

lemma hasValue_of_takes {value : String} (h : spec.Takes value) : spec.hasValue = true := by
  unfold Takes at h
  unfold hasValue
  split at h <;> simp_all

lemma not_takes_of_flag (h : spec.kind = .flag) (value : String) : ¬ spec.Takes value := by
  simp [Takes, h]

lemma alone?_cons (hflag : spec.kind ≠ .flag) (hrequest : spec.kind ≠ .request) (word : String)
    (rest : List String) :
    spec.alone? (word :: rest) =
      if looksLikeOption word then none else spec.withValue? word rest := by
  unfold alone?
  split
  · exact absurd ‹_› hflag
  · exact absurd ‹_› hrequest
  · rfl

lemma alone?_nil (hflag : spec.kind ≠ .flag) (hrequest : spec.kind ≠ .request) :
    spec.alone? [] = none := by
  unfold alone?
  split
  · exact absurd ‹_› hflag
  · exact absurd ‹_› hrequest
  · rfl

/-- An option without a value in its own word, if it is no request: it is a flag, or its value is
the next word. -/
lemma alone?_eq_some_iff (hrequest : spec.kind = .request → .flag spec.name ∉ arguments) :
    spec.alone? rest = some (arguments, rest') ↔
      (spec.kind = .flag ∧ arguments = [.flag spec.name] ∧ rest' = rest) ∨
        ∃ value, rest = value :: rest' ∧ looksLikeOption value = false ∧ spec.Takes value ∧
          arguments = [.valued spec.name value] := by
  by_cases hflag : spec.kind = .flag
  · have halone : spec.alone? rest = some ([.flag spec.name], rest) := by
      simp only [alone?, hflag]
    rw [halone]
    constructor
    · intro h
      cases h
      exact .inl ⟨hflag, rfl, rfl⟩
    · rintro (⟨-, rfl, rfl⟩ | ⟨value, -, -, htakes, -⟩)
      · rfl
      · exact absurd htakes (not_takes_of_flag hflag value)
  · by_cases hkind : spec.kind = .request
    · have halone : spec.alone? rest = some ([.flag spec.name], []) := by
        simp only [alone?, hkind]
      rw [halone]
      constructor
      · intro h
        cases h
        exact absurd List.mem_cons_self (hrequest hkind)
      · rintro (⟨hflag', -⟩ | ⟨value, -, -, htakes, -⟩)
        · exact absurd hflag' hflag
        · simp [Takes, hkind] at htakes
    · cases rest with
      | nil =>
        rw [alone?_nil hflag hkind]
        simp [hflag]
      | cons word rest =>
        rw [alone?_cons hflag hkind]
        constructor
        · intro h
          split at h
          · cases h
          next hword =>
            obtain ⟨htakes, rfl, rfl⟩ := withValue?_eq_some_iff.1 h
            exact .inr ⟨word, rfl, by simpa using hword, htakes, rfl⟩
        · rintro (⟨hflag', -⟩ | ⟨value, heq, hplain, htakes, rfl⟩)
          · exact absurd hflag' hflag
          · cases heq
            rw [if_neg (by simp [hplain])]
            exact withValue?_eq_some_iff.2 ⟨htakes, rfl, rfl⟩

end OptionSpec

/-! ## Single words -/

section

variable {specs : List OptionSpec} {rest rest' : List String} {arguments : List Argument}

lemma noRequest_nil (specs : List OptionSpec) : NoRequest specs [] :=
  fun _ _ _ => List.not_mem_nil

lemma NoRequest.mono {more : List Argument} (h : NoRequest specs more) (hle : arguments ⊆ more) :
    NoRequest specs arguments :=
  fun spec hspec hkind hmem => h spec hspec hkind (hle hmem)

lemma NoRequest.append {more : List Argument} (h : NoRequest specs arguments)
    (h' : NoRequest specs more) : NoRequest specs (arguments ++ more) := by
  intro spec hspec hkind hmem
  rcases List.mem_append.1 hmem with hmem | hmem
  · exact h spec hspec hkind hmem
  · exact h' spec hspec hkind hmem

lemma readLong?_name (hspecs : OptionSpec.Distinct specs) {spec : OptionSpec}
    (hknown : spec ∈ specs) (rest : List String) :
    readLong? specs spec.name.toList rest = spec.alone? rest := by
  have hplain := hspecs.ne_equals hknown
  have htake : spec.name.toList.takeWhile (fun c => decide (c ≠ '=')) = spec.name.toList :=
    List.takeWhile_eq_self_iff.2 hplain
  have hdrop : spec.name.toList.dropWhile (fun c => decide (c ≠ '=')) = [] :=
    List.dropWhile_eq_nil_iff.2 hplain
  simp only [readLong?, htake, hdrop, String.ofList_toList, hspecs.find?_name hknown]

lemma readLong?_joined (hspecs : OptionSpec.Distinct specs) {spec : OptionSpec}
    (hknown : spec ∈ specs) (value : List Char) (rest : List String) :
    readLong? specs (spec.name.toList ++ '=' :: value) rest =
      spec.withValue? (String.ofList value) rest := by
  have hplain := hspecs.ne_equals hknown
  have htake : (spec.name.toList ++ '=' :: value).takeWhile (fun c => decide (c ≠ '=')) =
      spec.name.toList := by
    rw [List.takeWhile_append_of_pos hplain]
    simp
  have hdrop : (spec.name.toList ++ '=' :: value).dropWhile (fun c => decide (c ≠ '=')) =
      '=' :: value := by
    rw [List.dropWhile_append_of_pos hplain]
    simp
  simp only [readLong?, htake, hdrop, String.ofList_toList, hspecs.find?_name hknown]

/-- A long option that is read has a known name, with a value behind it or without. -/
lemma exists_of_readLong? {text : List Char} {reading : Reading}
    (h : readLong? specs text rest = some reading) : ∃ spec ∈ specs,
      text = spec.name.toList ∨ ∃ value, text = spec.name.toList ++ '=' :: value := by
  simp only [readLong?] at h
  have hsplit : text = text.takeWhile (· ≠ '=') ++ text.dropWhile (· ≠ '=') :=
    List.takeWhile_append_dropWhile.symm
  split at h
  · cases h
  next spec hfind hdrop =>
    refine ⟨spec, List.mem_of_find?_eq_some hfind, .inl ?_⟩
    have hname : spec.name = String.ofList (text.takeWhile (· ≠ '=')) := by
      simpa using List.find?_some hfind
    rw [hname, String.toList_ofList]
    rwa [hdrop, List.append_nil] at hsplit
  next spec c value hfind hdrop =>
    refine ⟨spec, List.mem_of_find?_eq_some hfind, .inr ⟨value, ?_⟩⟩
    have hname : spec.name = String.ofList (text.takeWhile (· ≠ '=')) := by
      simpa using List.find?_some hfind
    have hc : c = '=' := by
      have hhead := List.head?_dropWhile_not (fun c => decide (c ≠ '=')) text
      rw [hdrop] at hhead
      simpa using hhead
    rw [hname, String.toList_ofList]
    rwa [hdrop, hc] at hsplit

/-- A word that starts with two hyphens. -/
lemma readLong?_eq_some_iff (hspecs : OptionSpec.Distinct specs) (hnone : NoRequest specs arguments)
    {text : List Char} {word : String} (hword : word.toList = '-' :: '-' :: text) :
    readLong? specs text rest = some (arguments, rest') ↔
      ∃ next, rest = next ++ rest' ∧ SpellsWord specs word next arguments := by
  constructor
  · intro h
    obtain ⟨spec, hknown, rfl | ⟨value, rfl⟩⟩ := exists_of_readLong? h
    · rw [readLong?_name hspecs hknown, OptionSpec.alone?_eq_some_iff (hnone spec hknown)] at h
      rcases h with ⟨hflag, rfl, rfl⟩ | ⟨value, rfl, hplain, htakes, rfl⟩
      · exact ⟨[], rfl, .flag hknown hflag hword⟩
      · exact ⟨[value], rfl, .next hknown htakes hplain hword⟩
    · rw [readLong?_joined hspecs hknown, OptionSpec.withValue?_eq_some_iff] at h
      obtain ⟨htakes, rfl, rfl⟩ := h
      exact ⟨[], rfl, .joined hknown htakes (by rw [hword, String.toList_ofList])⟩
  · rintro ⟨next, rfl, hspells⟩
    cases hspells with
    | positional hplain =>
      rw [looksLikeOption_iff.2 ⟨_, _, hword⟩] at hplain
      cases hplain
    | @flag spec hknown hflag hspelling =>
      obtain rfl : text = spec.name.toList := by simpa [hword] using hspelling
      rw [readLong?_name hspecs hknown, OptionSpec.alone?_eq_some_iff (hnone spec hknown)]
      exact .inl ⟨hflag, rfl, rfl⟩
    | @joined spec value hknown htakes hspelling =>
      obtain rfl : text = spec.name.toList ++ '=' :: value.toList := by
        simpa [hword] using hspelling
      rw [readLong?_joined hspecs hknown, OptionSpec.withValue?_eq_some_iff, String.ofList_toList]
      exact ⟨htakes, rfl, rfl⟩
    | @next spec value hknown htakes hplain hspelling =>
      obtain rfl : text = spec.name.toList := by simpa [hword] using hspelling
      rw [readLong?_name hspecs hknown, OptionSpec.alone?_eq_some_iff (hnone spec hknown)]
      exact .inr ⟨value, rfl, hplain, htakes, rfl⟩
    | letters hspelling hletter _ =>
      rw [hword] at hspelling
      exact absurd (List.cons.inj (List.cons.inj hspelling).2).1.symm hletter

/-- What is behind the letter of an option that is no flag: its value, perhaps behind an equals
sign, or nothing, and the value is the next word. -/
lemma readLetterValue_eq_some_iff {spec : OptionSpec} (hflag : spec.kind ≠ .flag)
    (hrequest : spec.kind = .request → .flag spec.name ∉ arguments) {text : List Char} :
    (if spec.hasValue && !text.isEmpty then
        spec.withValue? (String.ofList (if text.head? = some '=' then text.drop 1 else text)) rest
      else spec.alone? rest) = some (arguments, rest') ↔
      ∃ value, spec.Takes value ∧ arguments = [.valued spec.name value] ∧
        ((rest' = rest ∧ (text = '=' :: value.toList ∨
            text = value.toList ∧ text ≠ [] ∧ text.head? ≠ some '=')) ∨
          (text = [] ∧ rest = value :: rest' ∧ looksLikeOption value = false)) := by
  constructor
  · intro h
    split at h
    next hvalue =>
      rw [Bool.and_eq_true, Bool.not_eq_true', List.isEmpty_eq_false_iff] at hvalue
      obtain ⟨htakes, hvalued, hrest⟩ := OptionSpec.withValue?_eq_some_iff.1 h
      refine ⟨_, htakes, hvalued, .inl ⟨hrest, ?_⟩⟩
      rw [String.toList_ofList]
      split
      next hequals =>
        obtain ⟨value, rfl⟩ := List.head?_eq_some_iff.1 hequals
        exact .inl rfl
      next hequals => exact .inr ⟨rfl, hvalue.2, hequals⟩
    next hvalue =>
      rcases (OptionSpec.alone?_eq_some_iff hrequest).1 h with
        ⟨hflag', -⟩ | ⟨value, hrest, hplain, htakes, hvalued⟩
      · exact absurd hflag' hflag
      · have hempty : text = [] := by
          simpa [OptionSpec.hasValue_of_takes htakes] using hvalue
        exact ⟨value, htakes, hvalued, .inr ⟨hempty, hrest, hplain⟩⟩
  · rintro ⟨value, htakes, rfl, ⟨rfl, rfl | ⟨rfl, hne, hequals⟩⟩ | ⟨rfl, rfl, hplain⟩⟩
    · simpa [OptionSpec.hasValue_of_takes htakes] using
        OptionSpec.withValue?_eq_some_iff.2 ⟨htakes, rfl, rfl⟩
    · have hlist : value.toList.isEmpty = false := List.isEmpty_eq_false_iff.2 hne
      simpa [OptionSpec.hasValue_of_takes htakes, hlist, hequals] using
        OptionSpec.withValue?_eq_some_iff.2 ⟨htakes, rfl, rfl⟩
    · simpa using (OptionSpec.alone?_eq_some_iff hrequest).2 (.inr ⟨value, rfl, hplain, htakes, rfl⟩)

/-- The letters of a word. -/
lemma readLetters?_eq_some_iff (hspecs : OptionSpec.Distinct specs)
    (hnone : NoRequest specs arguments) {text : List Char} :
    readLetters? specs rest text = some (arguments, rest') ↔
      ∃ next, rest = next ++ rest' ∧ SpellsLetters specs text next arguments := by
  induction text generalizing arguments with
  | nil =>
    constructor
    · intro h
      cases h
      exact ⟨[], rfl, .done⟩
    · rintro ⟨next, rfl, hspells⟩
      cases hspells
      rfl
  | cons c text ih =>
    constructor
    · intro h
      rw [readLetters?] at h
      split at h
      · cases h
      next spec hfind =>
        have hknown := List.mem_of_find?_eq_some hfind
        have hletter : spec.letter = some c := by simpa using List.find?_some hfind
        split at h
        next hflag =>
          obtain ⟨⟨others, left⟩, hread, heq⟩ := Option.map_eq_some_iff.1 h
          cases heq
          obtain ⟨next, hrest, hspells⟩ := (ih (hnone.mono (List.subset_cons_self _ _))).1 hread
          exact ⟨next, hrest, .flag hknown hletter hflag hspells⟩
        next hflag =>
          obtain ⟨value, htakes, rfl, ⟨rfl, hvalue⟩ | ⟨rfl, rfl, hplain⟩⟩ :=
            (readLetterValue_eq_some_iff hflag (hnone spec hknown)).1 h
          · exact ⟨[], rfl, .joined hknown hletter htakes hvalue⟩
          · exact ⟨[value], rfl, .next hknown hletter htakes hplain⟩
    · rintro ⟨next, rfl, hspells⟩
      cases hspells with
      | flag hknown hletter hflag hrest =>
        have hread := (ih (hnone.mono (List.subset_cons_self _ _))).2 ⟨next, rfl, hrest⟩
        simp only [readLetters?, hspecs.find?_letter hknown hletter, hflag, if_true, hread,
          Option.map_some]
      | @joined spec _ _ value hknown hletter htakes hvalue =>
        have hflag : spec.kind ≠ .flag := fun h => OptionSpec.not_takes_of_flag h value htakes
        simp only [readLetters?, hspecs.find?_letter hknown hletter, hflag, if_false]
        exact (readLetterValue_eq_some_iff hflag (hnone spec hknown)).2
          ⟨value, htakes, rfl, .inl ⟨rfl, hvalue⟩⟩
      | @next spec _ value hknown hletter htakes hplain =>
        have hflag : spec.kind ≠ .flag := fun h => OptionSpec.not_takes_of_flag h value htakes
        simp only [readLetters?, hspecs.find?_letter hknown hletter, hflag, if_false]
        exact (readLetterValue_eq_some_iff hflag (hnone spec hknown)).2
          ⟨value, htakes, rfl, .inr ⟨rfl, rfl, hplain⟩⟩

/-- A word that is not taken as an option is positional. -/
lemma SpellsWord.eq_positional {word : String} {next : List String}
    (h : SpellsWord specs word next arguments) (hplain : looksLikeOption word = false) :
    next = [] ∧ arguments = [.positional word] := by
  have hshort : ∀ {c : Char} {text : List Char}, word.toList ≠ '-' :: c :: text := by
    intro c text heq
    rw [looksLikeOption_iff.2 ⟨c, text, heq⟩] at hplain
    cases hplain
  cases h with
  | positional _ => exact ⟨rfl, rfl⟩
  | flag _ _ hspelling => exact absurd hspelling hshort
  | joined _ _ hspelling => exact absurd hspelling hshort
  | next _ _ _ hspelling => exact absurd hspelling hshort
  | letters hspelling _ _ => exact absurd hspelling hshort

/-- A single word. -/
lemma readWord?_eq_some_iff (hspecs : OptionSpec.Distinct specs) (hnone : NoRequest specs arguments)
    {word : String} :
    readWord? specs word rest = some (arguments, rest') ↔
      ∃ next, rest = next ++ rest' ∧ SpellsWord specs word next arguments := by
  unfold readWord?
  split
  next text hword => exact readLong?_eq_some_iff hspecs hnone hword
  next c text hlong hword =>
    rw [readLetters?_eq_some_iff hspecs hnone]
    have hletter : c ≠ '-' := hlong
    refine exists_congr fun next => and_congr_right fun _ => ⟨.letters hword hletter, fun h => ?_⟩
    have hlong : ∀ {text' : List Char}, word.toList ≠ '-' :: '-' :: text' := by
      intro text' heq
      rw [hword] at heq
      exact hletter (List.cons.inj (List.cons.inj heq).2).1
    cases h with
    | positional hplain =>
      rw [looksLikeOption_iff.2 ⟨_, _, hword⟩] at hplain
      cases hplain
    | flag _ _ hspelling => exact absurd hspelling hlong
    | joined _ _ hspelling => exact absurd hspelling hlong
    | next _ _ _ hspelling => exact absurd hspelling hlong
    | letters hspelling _ hspells =>
      obtain ⟨rfl, rfl⟩ : c = _ ∧ text = _ := by simpa [hword] using hspelling
      exact hspells
  next hlong hletters =>
    have hplain : looksLikeOption word = false := by
      rw [Bool.eq_false_iff, ne_eq, looksLikeOption_iff]
      rintro ⟨c, text, hword⟩
      exact hletters c text hword
    constructor
    · intro h
      cases h
      exact ⟨[], rfl, .positional hplain⟩
    · rintro ⟨next, rfl, hspells⟩
      obtain ⟨rfl, rfl⟩ := hspells.eq_positional hplain
      rfl

end

/-! ## All words -/

section

variable {specs : List OptionSpec} {seen arguments : List Argument} {words : List String}

lemma apart_nil : Apart [] :=
  List.nodup_nil

lemma Apart.of_append (h : Apart (seen ++ arguments)) : Apart seen :=
  List.Nodup.sublist ((List.sublist_append_left seen arguments).map Argument.name?) h

lemma eq_append_of_addAll? {out : List Argument} (h : addAll? seen arguments = some out) :
    out = seen ++ arguments := by
  induction arguments generalizing seen with
  | nil =>
    cases h
    exact (List.append_nil _).symm
  | cons argument rest ih =>
    rw [addAll?] at h
    split at h
    · cases h
    · rw [ih h, List.append_assoc, List.singleton_append]

lemma addAll?_eq_some_iff (hseen : Apart seen) {out : List Argument} :
    addAll? seen arguments = some out ↔ out = seen ++ arguments ∧ Apart (seen ++ arguments) := by
  induction arguments generalizing seen with
  | nil => simp [addAll?, hseen, eq_comm]
  | cons argument rest ih =>
    rw [addAll?, List.append_cons seen argument rest]
    by_cases hgiven : argument.name? ∈ seen.map Argument.name?
    · have htwice : ¬ Apart (seen ++ [argument] ++ rest) := by
        intro hapart
        have hfirst := hapart.of_append
        rw [Apart, List.map_append, List.nodup_append'] at hfirst
        exact hfirst.2.2 hgiven (by simp)
      obtain ⟨other, hother, hname⟩ := List.mem_map.1 hgiven
      have hany : (seen.any fun a => a.name? == argument.name?) = true :=
        List.any_eq_true.2 ⟨other, hother, by simp [hname]⟩
      rw [hany, if_pos rfl]
      exact iff_of_false (fun h => by cases h) fun h => htwice h.2
    · have hany : (seen.any fun a => a.name? == argument.name?) = false := by
        rw [List.any_eq_false]
        intro other hother heq
        exact hgiven (List.mem_map.2 ⟨other, hother, by simpa using heq⟩)
      have hnext : Apart (seen ++ [argument]) := by
        rw [Apart, List.map_append, List.nodup_append']
        exact ⟨hseen, by simp, by simpa using hgiven⟩
      rw [hany, if_neg Bool.false_ne_true, ih hnext]

/-- What has been seen stays. -/
lemma exists_of_readAllFrom? {steps : Nat} {out : List Argument}
    (h : readAllFrom? specs steps seen words = some out) : ∃ later, out = seen ++ later := by
  induction steps generalizing seen words with
  | zero =>
    cases h
    exact ⟨[], (List.append_nil _).symm⟩
  | succ steps ih =>
    cases words with
    | nil =>
      cases h
      exact ⟨[], (List.append_nil _).symm⟩
    | cons word rest =>
      rw [readAllFrom?] at h
      split at h
      · exact ⟨_, eq_append_of_addAll? h⟩
      · split at h
        · cases h
        · split at h
          · cases h
          next hadd =>
            obtain ⟨later, rfl⟩ := ih h
            exact ⟨_, by rw [eq_append_of_addAll? hadd, List.append_assoc]⟩

/-- A word that spells something is not the one behind which every word is positional. -/
lemma SpellsWord.ne_hyphens (hspecs : OptionSpec.Distinct specs) {word : String}
    {next : List String} (h : SpellsWord specs word next arguments) : word ≠ "--" := by
  rintro rfl
  have hchars : "--".toList = ['-', '-'] := rfl
  cases h with
  | positional hplain => exact absurd hplain (by decide)
  | flag hknown _ hspelling =>
    exact (hspecs.name_plain _ hknown).1 (by simpa [hchars] using hspelling.symm)
  | joined _ _ hspelling => simp [hchars] at hspelling
  | next hknown _ _ hspelling =>
    exact (hspecs.name_plain _ hknown).1 (by simpa [hchars] using hspelling.symm)
  | letters hspelling hletter _ =>
    rw [hchars] at hspelling
    exact hletter (List.cons.inj (List.cons.inj hspelling).2).1.symm

/-- Reading words behind arguments that have been seen, with a bound that the words do not
reach. -/
lemma readAllFrom?_eq_some_iff (hspecs : OptionSpec.Distinct specs) {steps : Nat}
    (hsteps : words.length < steps) {out : List Argument} (hnone : NoRequest specs out)
    (hseen : Apart seen) :
    readAllFrom? specs steps seen words = some out ↔
      ∃ arguments, Spells specs words arguments ∧ out = seen ++ arguments ∧ Apart out := by
  induction steps generalizing seen words with
  | zero => omega
  | succ steps ih =>
    cases words with
    | nil =>
      constructor
      · intro h
        cases h
        exact ⟨[], .done, (List.append_nil _).symm, hseen⟩
      · rintro ⟨arguments, hspells, rfl, -⟩
        cases hspells
        rw [List.append_nil]
        rfl
    | cons word words =>
      rw [List.length_cons] at hsteps
      constructor
      · intro h
        rw [readAllFrom?] at h
        split at h
        next hhyphens =>
          obtain ⟨rfl, hapart⟩ := (addAll?_eq_some_iff hseen).1 h
          exact ⟨_, hhyphens ▸ .hyphens words, rfl, hapart⟩
        next hhyphens =>
          split at h
          · cases h
          next arguments rest hword =>
            split at h
            · cases h
            next seen' hadd =>
              obtain ⟨rfl, hapart⟩ := (addAll?_eq_some_iff hseen).1 hadd
              obtain ⟨later, hlater⟩ := exists_of_readAllFrom? h
              have hrequest : NoRequest specs arguments := hnone.mono fun argument hmem => by
                rw [hlater]
                exact List.mem_append_left _ (List.mem_append_right _ hmem)
              obtain ⟨next, rfl, hspells⟩ := (readWord?_eq_some_iff hspecs hrequest).1 hword
              rw [List.length_append] at hsteps
              obtain ⟨others, hothers, rfl, hout⟩ := (ih (by omega) hapart).1 h
              exact ⟨arguments ++ others, .word hspells hothers, List.append_assoc .., hout⟩
      · rintro ⟨arguments, hspells, rfl, hapart⟩
        cases hspells with
        | hyphens _ =>
          rw [readAllFrom?, if_pos rfl]
          exact (addAll?_eq_some_iff hseen).2 ⟨rfl, hapart⟩
        | @word _ next words arguments others hfirst hothers =>
          have hfirstApart : Apart (seen ++ arguments) :=
            Apart.of_append (List.append_assoc .. ▸ hapart)
          have hrequest : NoRequest specs arguments := hnone.mono fun argument hmem =>
            List.mem_append_right _ (List.mem_append_left _ hmem)
          have hword : readWord? specs word (next ++ words) = some (arguments, words) :=
            (readWord?_eq_some_iff hspecs hrequest).2 ⟨next, rfl, hfirst⟩
          have hadd := (addAll?_eq_some_iff hseen).2 ⟨rfl, hfirstApart⟩
          rw [List.length_append] at hsteps
          rw [readAllFrom?, if_neg (hfirst.ne_hyphens hspecs), hword]
          simp only [hadd]
          exact (ih (by omega) hfirstApart).2
            ⟨others, hothers, (List.append_assoc ..).symm, hapart⟩

/-- Words are read as arguments exactly if they spell them, each option once. -/
theorem readAll?_eq_some_iff (hspecs : OptionSpec.Distinct specs)
    (hnone : NoRequest specs arguments) :
    readAll? specs words = some arguments ↔ Spells specs words arguments ∧ Apart arguments := by
  rw [readAll?, readAllFrom?_eq_some_iff hspecs (Nat.lt_succ_self _) hnone apart_nil]
  simp

/-! ## What was given -/

/-- A search that only one argument passes. -/
lemma findSome?_eq_some_iff_of_apart (hapart : Apart arguments) (name : Option String) {β : Type}
    {test : Argument → Option β}
    (hname : ∀ argument value, test argument = some value → argument.name? = name) {value : β} :
    arguments.findSome? test = some value ↔ ∃ argument ∈ arguments, test argument = some value := by
  constructor
  · exact List.exists_of_findSome?_eq_some
  · rintro ⟨argument, hmem, htest⟩
    have hsome : (arguments.findSome? test).isSome := by
      rw [List.findSome?_isSome_iff]
      exact ⟨argument, hmem, by simp [htest]⟩
    obtain ⟨value', hvalue⟩ := Option.isSome_iff_exists.1 hsome
    obtain ⟨other, hother, htest'⟩ := List.exists_of_findSome?_eq_some hvalue
    have heq : other = argument := List.inj_on_of_nodup_map hapart hother hmem
      ((hname other value' htest').trans (hname argument value htest).symm)
    rw [hvalue, ← htest', heq, htest]

lemma hasFlag_iff {name : String} : hasFlag arguments name = true ↔ .flag name ∈ arguments := by
  rw [hasFlag, List.contains_iff_mem]

lemma value?_eq_some_iff (hapart : Apart arguments) {name value : String} :
    value? arguments name = some value ↔ .valued name value ∈ arguments := by
  rw [value?, findSome?_eq_some_iff_of_apart hapart (some name)]
  · constructor
    · rintro ⟨argument, hmem, htest⟩
      split at htest
      next n found =>
        split at htest
        next hname =>
          cases htest
          exact hname ▸ hmem
        next => cases htest
      next => cases htest
    · exact fun hmem => ⟨_, hmem, by simp⟩
  · intro argument value htest
    split at htest
    next n found =>
      split at htest
      next hname => exact congrArg some hname
      next => cases htest
    next => cases htest

lemma value?_eq_none_iff {name : String} :
    value? arguments name = none ↔ ∀ value, .valued name value ∉ arguments := by
  rw [value?, List.findSome?_eq_none_iff]
  constructor
  · intro h value hmem
    simpa using h _ hmem
  · intro h argument hmem
    split
    next n found =>
      rw [if_neg]
      rintro rfl
      exact h found hmem
    next => rfl

lemma positional?_eq_some_iff (hapart : Apart arguments) {value : String} :
    positional? arguments = some value ↔ .positional value ∈ arguments := by
  rw [positional?, findSome?_eq_some_iff_of_apart hapart none]
  · constructor
    · rintro ⟨argument, hmem, htest⟩
      split at htest
      next found =>
        cases htest
        exact hmem
      next => cases htest
    · exact fun hmem => ⟨_, hmem, rfl⟩
  · intro argument value htest
    split at htest
    next => rfl
    next => cases htest

end

end WordFields.CommandLine
