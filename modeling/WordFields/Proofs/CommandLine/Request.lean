import WordFields.CommandLine.Request
import WordFields.Proofs.CommandLine.Grammar

/-!
# Processing commands

`ProcessLine` says which words are a processing command, with which flags before its name and which
arguments after it, and `OptionsGiven` what these arguments say about the options.  The words that
ask for processing are the processing commands (`exists_processLine_iff`), and what they ask for is
what their arguments say (`ProcessLine.ofWords?`).
-/

namespace WordFields.CommandLine

/-! ## Which arguments words can spell -/

/-- Whether an argument is an option with what it takes. -/
def OptionSpec.Gives (spec : OptionSpec) (argument : Argument) : Prop :=
  (spec.kind = .flag ∧ argument = .flag spec.name) ∨
    ∃ value, spec.Takes value ∧ argument = .valued spec.name value

section

variable {specs : List OptionSpec} {word : String} {next words : List String} {text : List Char}
  {argument : Argument} {arguments : List Argument}

lemma SpellsLetters.exists_gives (h : SpellsLetters specs text next arguments)
    (hmem : argument ∈ arguments) : ∃ spec ∈ specs, spec.Gives argument := by
  induction h with
  | done => cases hmem
  | flag hknown _ hflag _ ih =>
    rcases List.mem_cons.1 hmem with rfl | hmem
    · exact ⟨_, hknown, .inl ⟨hflag, rfl⟩⟩
    · exact ih hmem
  | joined hknown _ htakes _ => exact ⟨_, hknown, .inr ⟨_, htakes, List.mem_singleton.1 hmem⟩⟩
  | next hknown _ htakes _ => exact ⟨_, hknown, .inr ⟨_, htakes, List.mem_singleton.1 hmem⟩⟩

lemma SpellsWord.exists_gives (h : SpellsWord specs word next arguments)
    (hmem : argument ∈ arguments) :
    (looksLikeOption word = false ∧ argument = .positional word) ∨
      ∃ spec ∈ specs, spec.Gives argument := by
  cases h with
  | positional hplain => exact .inl ⟨hplain, List.mem_singleton.1 hmem⟩
  | flag hknown hflag _ => exact .inr ⟨_, hknown, .inl ⟨hflag, List.mem_singleton.1 hmem⟩⟩
  | joined hknown htakes _ =>
    exact .inr ⟨_, hknown, .inr ⟨_, htakes, List.mem_singleton.1 hmem⟩⟩
  | next hknown htakes _ _ =>
    exact .inr ⟨_, hknown, .inr ⟨_, htakes, List.mem_singleton.1 hmem⟩⟩
  | letters _ _ hspells => exact .inr (hspells.exists_gives hmem)

lemma Spells.exists_gives (h : Spells specs words arguments) (hmem : argument ∈ arguments) :
    (∃ value, argument = .positional value) ∨ ∃ spec ∈ specs, spec.Gives argument := by
  induction h with
  | done => cases hmem
  | hyphens words =>
    obtain ⟨value, -, rfl⟩ := List.mem_map.1 hmem
    exact .inl ⟨value, rfl⟩
  | word hfirst _ ih =>
    rcases List.mem_append.1 hmem with hmem | hmem
    · exact (hfirst.exists_gives hmem).imp_left fun h => ⟨_, h.2⟩
    · exact ih hmem

/-- No request is spelled. -/
lemma Spells.noRequest (hspecs : OptionSpec.Distinct specs) (h : Spells specs words arguments) :
    NoRequest specs arguments := by
  intro spec hspec hrequest hmem
  rcases h.exists_gives hmem with ⟨value, hvalue⟩ | ⟨other, hother, ⟨hflag, heq⟩ | ⟨_, _, heq⟩⟩
  · cases hvalue
  · rw [hspecs.name_injective spec hspec other hother (Argument.flag.inj heq), hflag] at hrequest
    cases hrequest
  · cases heq

lemma SpellsLetters.next_eq_nil (hflags : ∀ spec ∈ specs, spec.hasValue = false)
    (h : SpellsLetters specs text next arguments) : next = [] := by
  induction h with
  | done => rfl
  | flag _ _ _ _ ih => exact ih
  | joined _ _ _ _ => rfl
  | next hknown _ htakes _ =>
    exact absurd (OptionSpec.hasValue_of_takes htakes) (by simp [hflags _ hknown])

lemma SpellsWord.noRequest (hspecs : OptionSpec.Distinct specs)
    (h : SpellsWord specs word next arguments) : NoRequest specs arguments := by
  have hall := (Spells.word h .done).noRequest hspecs
  rwa [List.append_nil] at hall

/-- Where no option has a value, every word stands for itself. -/
lemma SpellsWord.next_eq_nil (hflags : ∀ spec ∈ specs, spec.hasValue = false)
    (h : SpellsWord specs word next arguments) : next = [] := by
  cases h with
  | positional _ => rfl
  | flag _ _ _ => rfl
  | joined _ _ _ => rfl
  | next hknown htakes _ _ =>
    exact absurd (OptionSpec.hasValue_of_takes htakes) (by simp [hflags _ hknown])
  | letters _ _ hspells => exact hspells.next_eq_nil hflags

end

/-! ## Processing commands -/

/-- The options of a processing command. -/
def processSpecs : List OptionSpec :=
  globalSpecs ++
    [⟨"data", some 'd', .text⟩, ⟨"output", some 'o', .text⟩, ⟨"placeholder", none, .text⟩,
      ⟨"no-merge-comments", none, .flag⟩, ⟨"else-policy", none, .choice ["reject", "toggle"]⟩,
      ⟨"merge-only", none, .flag⟩, ⟨"if-only", none, .flag⟩]

lemma commandSpecs?_process : commandSpecs? "process" = some processSpecs :=
  rfl

lemma distinct_topSpecs : OptionSpec.Distinct topSpecs := by
  constructor <;> decide +kernel

lemma distinct_processSpecs : OptionSpec.Distinct processSpecs := by
  constructor <;> decide +kernel

/-- Whether words are a processing command, with some flags before its name and some arguments after
it. -/
structure ProcessLine (words : List String) (flags arguments : List Argument) : Prop where
  spelled : ∃ above below, words = above ++ "process" :: below ∧ "--" ∉ above ∧
    Spells topSpecs above flags ∧ Spells processSpecs below arguments
  flags_named : ∀ argument ∈ flags, argument.name? ≠ none
  flags_apart : Apart flags
  arguments_apart : Apart arguments
  has_input : ∃ input, .positional input ∈ arguments
  /-- It is not confined to both kinds of field. -/
  one_kind : ¬ (.flag "merge-only" ∈ arguments ∧ .flag "if-only" ∈ arguments)

/-- The options that the arguments of a processing command say. -/
structure OptionsGiven (arguments : List Argument) (options : Options) : Prop where
  mergeComments : options.mergeComments = false ↔ .flag "no-merge-comments" ∈ arguments
  placeholder : ∀ text, .valued "placeholder" text ∈ arguments → options.placeholder = text
  placeholder_default : (∀ text, .valued "placeholder" text ∉ arguments) →
    options.placeholder = ".........."
  elsePolicy : ∀ policy : ElsePolicy, .valued "else-policy" policy.name ∈ arguments →
    options.elsePolicy = policy
  elsePolicy_default : (∀ name, .valued "else-policy" name ∉ arguments) →
    options.elsePolicy = .reject
  ifFields : options.ifFields = false ↔ .flag "merge-only" ∈ arguments
  mergeFields : options.mergeFields = false ↔ .flag "if-only" ∈ arguments
  ifPlaceholder : options.ifPlaceholder = "\x7bIF\x7d"

/-! ### The words before the name of the command -/

section

variable {words : List String} {flags arguments seen : List Argument} {command : Command}
  {report : ReportOptions}

lemma hasValue_topSpecs : ∀ spec ∈ topSpecs, spec.hasValue = false := by
  decide +kernel

/-- Without a request among the arguments there is no request for the version or for help. -/
lemma noRequest_topSpecs_iff :
    NoRequest topSpecs arguments ↔
      hasFlag arguments "version" = false ∧ hasFlag arguments "help" = false := by
  simp [NoRequest, topSpecs, globalSpecs, Bool.eq_false_iff, hasFlag_iff, and_comm]

lemma name?_ne_none_of_gives {spec : OptionSpec} {argument : Argument} (h : spec.Gives argument) :
    argument.name? ≠ none := by
  rcases h with ⟨-, rfl⟩ | ⟨value, -, rfl⟩ <;> simp [Argument.name?]

/-- One word before the name of a command. -/
lemma readTop?_option_iff (hseen : Apart seen) (hnone : NoRequest topSpecs seen) {word : String}
    (hoption : looksLikeOption word = true) :
    readTop? seen (word :: words) = some (.run command report) ↔
      ∃ arguments, SpellsWord topSpecs word [] arguments ∧ Apart (seen ++ arguments) ∧
        readTop? (seen ++ arguments) words = some (.run command report) := by
  rw [readTop?, if_pos hoption]
  constructor
  · intro h
    split at h
    · cases h
    next seen' hbind =>
      obtain ⟨⟨arguments, left⟩, hword, hadd⟩ := Option.bind_eq_some_iff.1 hbind
      obtain ⟨rfl, hapart⟩ := (addAll?_eq_some_iff hseen).1 hadd
      split at h
      · cases h
      next hversion =>
        split at h
        · cases h
        next hhelp =>
          have hrequest : NoRequest topSpecs (seen ++ arguments) :=
            noRequest_topSpecs_iff.2 ⟨by simpa using hversion, by simpa using hhelp⟩
          obtain ⟨next, hnext, hfirst⟩ := (readWord?_eq_some_iff distinct_topSpecs
            (hrequest.mono (List.subset_append_right seen arguments))).1 hword
          obtain ⟨rfl, -⟩ := List.append_eq_nil_iff.1 hnext.symm
          exact ⟨arguments, hfirst, hapart, h⟩
  · rintro ⟨arguments, hfirst, hapart, h⟩
    have hrequest := hfirst.noRequest distinct_topSpecs
    obtain ⟨hversion, hhelp⟩ := noRequest_topSpecs_iff.1 (hnone.append hrequest)
    have hword : readWord? topSpecs word [] = some (arguments, []) :=
      (readWord?_eq_some_iff distinct_topSpecs hrequest).2 ⟨[], rfl, hfirst⟩
    have hadd := (addAll?_eq_some_iff hseen).2 ⟨rfl, hapart⟩
    simp only [hword, Option.bind_some, hadd, hversion, hhelp, Bool.false_eq_true, if_false]
    exact h

/-- The words before the name of a command are flags. -/
lemma readTop?_eq_run_iff (hseen : Apart seen) (hnone : NoRequest topSpecs seen) :
    readTop? seen words = some (.run command report) ↔
      ∃ above name below flags, words = above ++ name :: below ∧ "--" ∉ above ∧
        looksLikeOption name = false ∧ Spells topSpecs above flags ∧
          (∀ argument ∈ flags, argument.name? ≠ none) ∧ Apart (seen ++ flags) ∧
            commandRequest? (seen ++ flags) name below = some (.run command report) := by
  induction words generalizing seen with
  | nil =>
    refine iff_of_false (fun h => by cases h) ?_
    rintro ⟨above, name, below, flags, hwords, -⟩
    exact List.append_ne_nil_of_right_ne_nil above (List.cons_ne_nil name below) hwords.symm
  | cons word rest ih =>
    cases hoption : looksLikeOption word with
    | true =>
      rw [readTop?_option_iff hseen hnone hoption]
      constructor
      · rintro ⟨arguments, hfirst, hapart, h⟩
        obtain ⟨above, name, below, flags, rfl, hhyphens, hname, hspells, hnamed, hall, hrun⟩ :=
          (ih hapart (hnone.append (hfirst.noRequest distinct_topSpecs))).1 h
        rw [List.append_assoc] at hall hrun
        refine ⟨word :: above, name, below, arguments ++ flags, rfl, ?_, hname,
          .word hfirst hspells, fun argument hargument => ?_, hall, hrun⟩
        · rw [List.mem_cons, not_or]
          exact ⟨(hfirst.ne_hyphens distinct_topSpecs).symm, hhyphens⟩
        · rcases List.mem_append.1 hargument with hargument | hargument
          · rcases hfirst.exists_gives hargument with ⟨hplain, -⟩ | ⟨spec, -, hgives⟩
            · simp [hoption] at hplain
            · exact name?_ne_none_of_gives hgives
          · exact hnamed argument hargument
      · rintro ⟨above, name, below, flags, hwords, hhyphens, hname, hspells, hnamed, hall, hrun⟩
        rcases List.cons_eq_append_iff.1 hwords with ⟨rfl, hcons⟩ | ⟨above', rfl, rfl⟩
        · obtain ⟨rfl, rfl⟩ := List.cons.inj hcons
          simp [hoption] at hname
        · cases hspells with
          | hyphens _ => simp at hhyphens
          | @word _ next above' arguments flags hfirst hothers =>
            obtain rfl := hfirst.next_eq_nil hasValue_topSpecs
            rw [← List.append_assoc] at hall hrun
            refine ⟨arguments, hfirst, hall.of_append, ?_⟩
            refine (ih hall.of_append (hnone.append (hfirst.noRequest distinct_topSpecs))).2
              ⟨above', name, below, flags, rfl, ?_, hname, hothers,
                fun argument hmem => hnamed argument (List.mem_append_right _ hmem), hall, hrun⟩
            exact fun hmem => hhyphens (List.mem_cons_of_mem _ hmem)
    | false =>
      rw [readTop?, if_neg (by simp [hoption])]
      constructor
      · intro h
        rw [← List.append_nil seen] at hseen h
        exact ⟨[], word, rest, [], rfl, List.not_mem_nil, hoption, .done, by simp, hseen, h⟩
      · rintro ⟨above, name, below, flags, hwords, hhyphens, -, hspells, hnamed, -, hrun⟩
        rcases List.cons_eq_append_iff.1 hwords with ⟨rfl, hcons⟩ | ⟨above', rfl, rfl⟩
        · obtain ⟨rfl, rfl⟩ := List.cons.inj hcons
          cases hspells
          rwa [List.append_nil] at hrun
        · cases hspells with
          | hyphens _ => simp at hhyphens
          | word hfirst _ =>
            obtain ⟨-, rfl⟩ := hfirst.eq_positional hoption
            exact absurd rfl (hnamed (.positional word) (by simp))

end

/-! ### The words after it -/

section

variable {words : List String} {above arguments : List Argument} {name input : String}
  {data output : Option String} {options : Options} {report : ReportOptions}

lemma noRequest_processSpecs_iff :
    NoRequest processSpecs arguments ↔ hasFlag arguments "help" = false := by
  simp [NoRequest, processSpecs, globalSpecs, Bool.eq_false_iff, hasFlag_iff]

lemma command?_eq_process_iff :
    command? name arguments = some (.process input data output options) ↔
      name = "process" ∧ positional? arguments = some input ∧
        processOptions? arguments = some options ∧ data = value? arguments "data" ∧
          output = value? arguments "output" := by
  unfold command?
  constructor
  · intro h
    split at h
    · cases h
    next found hfound =>
      split at h
      · cases h
      · obtain ⟨given, hgiven, heq⟩ := Option.map_eq_some_iff.1 h
        cases heq
        exact ⟨rfl, hfound, hgiven, rfl, rfl⟩
      · cases h
      · cases h
      · cases h
  · rintro ⟨rfl, hinput, hoptions, rfl, rfl⟩
    simp only [hinput, hoptions, Option.map_some]

/-- The request of the name `process` and the words after it. -/
lemma commandRequest?_eq_process_iff :
    commandRequest? above name words = some (.run (.process input data output options) report) ↔
      name = "process" ∧ ∃ arguments, Spells processSpecs words arguments ∧ Apart arguments ∧
        .positional input ∈ arguments ∧ processOptions? arguments = some options ∧
          data = value? arguments "data" ∧ output = value? arguments "output" ∧
          report = reportOptions above arguments := by
  unfold commandRequest?
  constructor
  · intro h
    split at h
    · unfold helpRequest? at h
      split at h
      · cases h
      · split at h <;> cases h
      · cases h
    · split at h
      · cases h
      next arguments hread =>
        split at h
        · cases h
        next hhelp =>
          obtain ⟨command, hcommand, heq⟩ := Option.map_eq_some_iff.1 h
          cases heq
          obtain ⟨rfl, hinput, hoptions, hdata, houtput⟩ := command?_eq_process_iff.1 hcommand
          rw [commandSpecs?_process, Option.bind_some] at hread
          obtain ⟨hspells, hapart⟩ := (readAll?_eq_some_iff distinct_processSpecs
            (noRequest_processSpecs_iff.2 (by simpa using hhelp))).1 hread
          exact ⟨rfl, arguments, hspells, hapart, (positional?_eq_some_iff hapart).1 hinput,
            hoptions, hdata, houtput, rfl⟩
  · rintro ⟨rfl, arguments, hspells, hapart, hinput, hoptions, rfl, rfl, rfl⟩
    have hnone := hspells.noRequest distinct_processSpecs
    have hread := (readAll?_eq_some_iff distinct_processSpecs hnone).2 ⟨hspells, hapart⟩
    have hcommand := command?_eq_process_iff.2
      ⟨rfl, (positional?_eq_some_iff hapart).2 hinput, hoptions, rfl, rfl⟩
    rw [if_neg (by decide), commandSpecs?_process, Option.bind_some, hread]
    simp only [noRequest_processSpecs_iff.1 hnone, Bool.false_eq_true, if_false, hcommand,
      Option.map_some]

end

/-! ### The options -/

section

variable {words : List String} {flags arguments : List Argument} {options options' : Options}

lemma ofName?_name (policy : ElsePolicy) : ElsePolicy.ofName? policy.name = some policy := by
  cases policy <;> decide

/-- Only the names of policies can be given for the policy. -/
lemma exists_policy (h : Spells processSpecs words arguments) {name : String}
    (hmem : .valued "else-policy" name ∈ arguments) :
    ∃ policy : ElsePolicy, name = policy.name := by
  rcases h.exists_gives hmem with ⟨value, hvalue⟩ | ⟨spec, hspec, ⟨-, heq⟩ | ⟨value, htakes, heq⟩⟩
  · cases hvalue
  · cases heq
  · obtain ⟨hname, rfl⟩ := Argument.valued.inj heq
    have hsame : spec = ⟨"else-policy", none, .choice ["reject", "toggle"]⟩ :=
      distinct_processSpecs.name_injective spec hspec _ (by decide +kernel) hname.symm
    subst hsame
    have hcases : name = "reject" ∨ name = "toggle" := by simpa [OptionSpec.Takes] using htakes
    rcases hcases with rfl | rfl
    · exact ⟨.reject, rfl⟩
    · exact ⟨.toggle, rfl⟩

/-- The arguments decide the options. -/
lemma OptionsGiven.unique (hpolicy : ∀ name, .valued "else-policy" name ∈ arguments →
      ∃ policy : ElsePolicy, name = policy.name)
    (h : OptionsGiven arguments options) (h' : OptionsGiven arguments options') :
    options = options' := by
  have hbool : ∀ {b b' : Bool} {p : Prop}, (b = false ↔ p) → (b' = false ↔ p) → b = b' := by
    intro b b' p hb hb'
    exact Bool.eq_iff_iff.2 (by simpa using not_congr (hb.trans hb'.symm))
  obtain ⟨placeholder, mergeComments, ifPlaceholder, elsePolicy, mergeFields, ifFields⟩ := options
  obtain ⟨placeholder', mergeComments', ifPlaceholder', elsePolicy', mergeFields', ifFields'⟩ :=
    options'
  have hplaceholder : placeholder = placeholder' := by
    by_cases hgiven : ∃ text, .valued "placeholder" text ∈ arguments
    · obtain ⟨text, htext⟩ := hgiven
      exact (h.placeholder text htext).trans (h'.placeholder text htext).symm
    · have hnone := not_exists.1 hgiven
      exact (h.placeholder_default hnone).trans (h'.placeholder_default hnone).symm
  have helsePolicy : elsePolicy = elsePolicy' := by
    by_cases hgiven : ∃ name, .valued "else-policy" name ∈ arguments
    · obtain ⟨name, hname⟩ := hgiven
      obtain ⟨policy, rfl⟩ := hpolicy name hname
      exact (h.elsePolicy policy hname).trans (h'.elsePolicy policy hname).symm
    · have hnone := not_exists.1 hgiven
      exact (h.elsePolicy_default hnone).trans (h'.elsePolicy_default hnone).symm
  have hmergeComments : mergeComments = mergeComments' := hbool h.mergeComments h'.mergeComments
  have hmergeFields : mergeFields = mergeFields' := hbool h.mergeFields h'.mergeFields
  have hifFields : ifFields = ifFields' := hbool h.ifFields h'.ifFields
  have hifPlaceholder : ifPlaceholder = ifPlaceholder' :=
    h.ifPlaceholder.trans h'.ifPlaceholder.symm
  rw [hplaceholder, helsePolicy, hmergeComments, hmergeFields, hifFields, hifPlaceholder]

/-- The options that are made of arguments are those that the arguments say. -/
lemma exists_processOptions? (hapart : Apart arguments)
    (hone : ¬ (.flag "merge-only" ∈ arguments ∧ .flag "if-only" ∈ arguments)) :
    ∃ options, processOptions? arguments = some options ∧ OptionsGiven arguments options := by
  have hboth : ¬ (hasFlag arguments "merge-only" && hasFlag arguments "if-only") = true := by
    rwa [Bool.and_eq_true, hasFlag_iff, hasFlag_iff]
  have hflag : ∀ {name : String}, (!hasFlag arguments name) = false ↔ .flag name ∈ arguments := by
    intro name
    rw [Bool.not_eq_false', hasFlag_iff]
  refine ⟨_, if_neg hboth, hflag, fun text htext => ?_, fun hnone => ?_, fun policy hpolicy => ?_,
    fun hnone => ?_, hflag, hflag, rfl⟩
  · simp only [(value?_eq_some_iff hapart).2 htext, Option.getD_some]
  · simp only [value?_eq_none_iff.2 hnone, Option.getD_none]
  · simp only [(value?_eq_some_iff hapart).2 hpolicy, Option.bind_some, ofName?_name,
      Option.getD_some]
  · simp only [value?_eq_none_iff.2 hnone, Option.bind_none, Option.getD_none]

lemma processOptions?_of_both
    (hboth : .flag "merge-only" ∈ arguments ∧ .flag "if-only" ∈ arguments) :
    processOptions? arguments = none := by
  have hflags : (hasFlag arguments "merge-only" && hasFlag arguments "if-only") = true := by
    rwa [Bool.and_eq_true, hasFlag_iff, hasFlag_iff]
  exact if_pos hflags

/-- The request of a processing command. -/
lemma ProcessLine.ofWords? (h : ProcessLine words flags arguments) {input : String}
    (hinput : .positional input ∈ arguments) (hoptions : OptionsGiven arguments options) :
    Request.ofWords? words =
      some (.run (.process input (value? arguments "data") (value? arguments "output") options)
        (reportOptions flags arguments)) := by
  obtain ⟨above, below, hwords, hhyphens, hflags, harguments⟩ := h.spelled
  obtain ⟨made, hmade, hgiven⟩ := exists_processOptions? h.arguments_apart h.one_kind
  obtain rfl := hgiven.unique (fun name hname => exists_policy harguments hname) hoptions
  refine (readTop?_eq_run_iff apart_nil (noRequest_nil _)).2
    ⟨above, "process", below, flags, hwords, hhyphens, by decide, hflags, h.flags_named,
      h.flags_apart, ?_⟩
  exact commandRequest?_eq_process_iff.2
    ⟨rfl, arguments, harguments, h.arguments_apart, hinput, hmade, rfl, rfl, rfl⟩

/-- The command lines that ask for processing are the processing commands. -/
lemma exists_processLine_iff :
    (∃ flags arguments, ProcessLine words flags arguments) ↔
      ∃ input data output options report, Request.ofWords? words =
        some (.run (.process input data output options) report) := by
  constructor
  · rintro ⟨flags, arguments, h⟩
    obtain ⟨input, hinput⟩ := h.has_input
    obtain ⟨options, -, hoptions⟩ := exists_processOptions? h.arguments_apart h.one_kind
    exact ⟨input, _, _, options, _, h.ofWords? hinput hoptions⟩
  · rintro ⟨input, data, output, options, report, h⟩
    obtain ⟨above, name, below, flags, hwords, hhyphens, -, hflags, hnamed, hapart, hrun⟩ :=
      (readTop?_eq_run_iff apart_nil (noRequest_nil _)).1 h
    obtain ⟨rfl, arguments, harguments, hargumentsApart, hinput, hoptions, -⟩ :=
      commandRequest?_eq_process_iff.1 hrun
    refine ⟨flags, arguments, ⟨above, below, hwords, hhyphens, hflags, harguments⟩, hnamed, hapart,
      hargumentsApart, ⟨input, hinput⟩, fun hboth => ?_⟩
    rw [processOptions?_of_both hboth] at hoptions
    cases hoptions

end

end WordFields.CommandLine
