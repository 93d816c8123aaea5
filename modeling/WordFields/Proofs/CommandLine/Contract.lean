import WordFields.CommandLine.Execution
import WordFields.CommandLine.FileList
import WordFields.Proofs.CommandLine.Request

/-!
# The contract of the command line

A command line does all of its work or shows nothing of it: unless the exit code is zero there is no
output and no file is written.  A processing command succeeds exactly if its inputs can be read, the
processing succeeds and the output can be written, and then it delivers what the function on whole
documents gives for these inputs and the options that its arguments say (`execute_contract`).  The
standard error stream has the report of the diagnostics behind what the log has, and nothing else
where the environment turns the log off.
-/

namespace WordFields.CommandLine

open Text

/-! ## Texts on the output streams -/

/-- Whether a text ends with a line feed. -/
def EndsLine (text : String) : Prop :=
  ∃ front, text = front ++ "\n"

/-- Whether a text is a content as a line of its own: a line feed is added to the content unless it
ends with one. -/
structure IsLineOf (content text : String) : Prop where
  ended : EndsLine content → text = content
  added : ¬ EndsLine content → text = content ++ "\n"

/-- Whether a text is the report of diagnostics: nothing if there are none, and otherwise one JSON
array or the texts of the diagnostics in order. -/
structure IsReport (diagnostics : List Diagnostic) (asJson : Prop) (report : String) : Prop where
  nothing : diagnostics = [] → report = ""
  json : diagnostics ≠ [] → asJson →
    report = (Json.array (diagnostics.map Diagnostic.toJson)).pretty ++ "\n"
  text : ¬ asJson →
    report.toList = diagnostics.flatMap fun diagnostic => diagnostic.toText.toList

/-- Whether lines are what the log has of an event: what a filter of the environment leaves, and
without a filter everything but the details, which are there on demand. -/
structure World.Logs (world : World) (verbose : Prop) (event : LogEvent) (lines : String) :
    Prop where
  filtered : ∀ filter, world.filteredLines? = some filter → lines = filter event
  shown : world.filteredLines? = none → (event = .details → verbose) →
    lines = world.logLines event
  hidden : world.filteredLines? = none → event = .details → ¬ verbose → lines = ""

/-- Whether the environment turns the log off. -/
def World.Silenced (world : World) : Prop :=
  ∃ filter, world.filteredLines? = some filter ∧ ∀ event, filter event = ""

lemma getLast?_eq_lineFeed_iff {text : String} :
    text.toList.getLast? = some '\n' ↔ EndsLine text := by
  rw [List.getLast?_eq_some_iff]
  constructor
  · rintro ⟨front, hfront⟩
    refine ⟨String.ofList front, String.toList_injective ?_⟩
    rw [hfront, String.toList_append, String.toList_ofList]
    rfl
  · rintro ⟨front, rfl⟩
    exact ⟨front.toList, String.toList_append⟩

lemma isLineOf_endLine (content : String) : IsLineOf content (endLine content) := by
  refine ⟨fun h => ?_, fun h => ?_⟩
  · rw [endLine, if_pos (getLast?_eq_lineFeed_iff.2 h)]
  · rw [endLine, if_neg (mt getLast?_eq_lineFeed_iff.1 h)]

lemma isReport_diagnosticsReport (diagnostics : List Diagnostic) (asJson : Bool) :
    IsReport diagnostics (asJson = true) (diagnosticsReport diagnostics asJson) := by
  refine ⟨fun hnone => ?_, fun hsome hjson => ?_, fun htext => ?_⟩
  · rw [diagnosticsReport, hnone, List.isEmpty_nil, if_pos rfl]
  · rw [diagnosticsReport, if_neg (by simpa using hsome), if_pos hjson]
  · cases diagnostics with
    | nil => rfl
    | cons diagnostic diagnostics =>
      rw [diagnosticsReport, List.isEmpty_cons, if_neg Bool.false_ne_true, if_neg htext, concat,
        String.toList_ofList, List.flatMap_map]

lemma World.logs_logged (world : World) (verbose : Bool) (event : LogEvent) :
    world.Logs (verbose = true) event (world.logged verbose event) := by
  have hdetail : event.isDetail = true ↔ event = .details := by
    cases event <;> simp [LogEvent.isDetail]
  refine ⟨fun filter hfilter => ?_, fun hnone hverbose => ?_, fun hnone hdetails hverbose => ?_⟩
  · simp only [logged, hfilter]
  · have hshown : ¬ (event.isDetail && !verbose) = true := by
      rw [Bool.and_eq_true, hdetail, Bool.not_eq_true']
      exact fun hhidden => absurd (hverbose hhidden.1) (by simp [hhidden.2])
    simp only [logged, hnone, if_neg hshown]
  · have hhidden : (event.isDetail && !verbose) = true := by
      rw [Bool.and_eq_true, hdetail, Bool.not_eq_true']
      exact ⟨hdetails, Bool.eq_false_iff.2 hverbose⟩
    simp only [logged, hnone, if_pos hhidden]

lemma World.Silenced.logged_eq {world : World} (h : world.Silenced) (verbose : Bool)
    (event : LogEvent) : world.logged verbose event = "" := by
  obtain ⟨filter, hfilter, hempty⟩ := h
  simp only [World.logged, hfilter, hempty]

lemma World.log_pair (world : World) (verbose : Bool) (event event' : LogEvent) :
    world.log verbose [event, event'] =
      world.logged verbose event ++ world.logged verbose event' := by
  refine String.toList_injective ?_
  simp [log, concat]

/-! ## What a command delivers -/

/-- Whether an input has a content; a hyphen names the standard input. -/
def World.Holds (world : World) (path content : String) : Prop :=
  (path = "-" ∧ world.stdin = .ok content) ∨ (path ≠ "-" ∧ world.read path = .ok content)

lemma World.readInput_eq_ok_iff {world : World} {path content : String} :
    world.readInput path = .ok content ↔ world.Holds path content := by
  unfold readInput Holds
  by_cases hpath : path = "-"
  · cases world.stdin <;> simp [hpath]
  · cases world.read path <;> simp [hpath]

/-- The inputs of a processing command: the document, and the data if there is any.  They are read
in this order, and the standard input is empty after it has been read. -/
structure ProcessInputs (world : World) (arguments : List Argument) (xml : String)
    (data : Option String) : Prop where
  document : ∀ input, .positional input ∈ arguments → world.Holds input xml
  data_given : ∀ input path, .positional input ∈ arguments → .valued "data" path ∈ arguments →
    ∃ text, data = some text ∧ (world.afterReading input).Holds path text
  data_default : (∀ path, .valued "data" path ∉ arguments) → data = none

/-- Whether the output can be written.  The standard output always can. -/
def OutputWritable (world : World) (arguments : List Argument) : Prop :=
  ∀ path, .valued "output" path ∈ arguments → path ≠ "-" → world.writeFault? path = none

/-- Whether an outcome is what processing gave: the markup in a file, or on the standard output as a
line of its own, and the report of the diagnostics on the standard error stream.  The report stands
behind what is logged; with the log turned off the stream has nothing else. -/
structure Delivers (world : World) (flags arguments : List Argument) (processed : Processed)
    (outcome : Outcome) : Prop where
  report : ∃ details line report, outcome.stderr = some (details ++ line ++ report) ∧
    world.Logs (.flag "verbose" ∈ flags ++ arguments) .details details ∧
    (∀ input, .positional input ∈ arguments → world.Logs (.flag "verbose" ∈ flags ++ arguments)
      (.processed input processed.diagnostics.length) line) ∧
    IsReport processed.diagnostics (.flag "diagnostics-json" ∈ flags ++ arguments) report
  report_silenced : world.Silenced → ∃ report, outcome.stderr = some report ∧
    IsReport processed.diagnostics (.flag "diagnostics-json" ∈ flags ++ arguments) report
  to_file : ∀ path, .valued "output" path ∈ arguments → path ≠ "-" →
    outcome.stdout = "" ∧ outcome.written = [(path, processed.xml)]
  to_stdout : (∀ path, .valued "output" path ∈ arguments → path = "-") →
    IsLineOf processed.xml outcome.stdout ∧ outcome.written = []

/-! ### Outcomes -/

/-- Whether an outcome shows nothing but a report of errors. -/
def Outcome.Silent (outcome : Outcome) : Prop :=
  outcome.stdout = "" ∧ outcome.written = []

section

variable {world : World} {event? : Option LogEvent} {report content : String}
  {path : Option String}

/-- Only a file that cannot be written makes the outcome of a product a failure. -/
lemma Product.code_eq_zero_or_silent (product : Product) :
    (product.outcome world).code = 0 ∨ (product.outcome world).Silent := by
  unfold outcome
  split
  · exact .inl rfl
  · exact .inl rfl
  · split
    · exact .inl rfl
    · exact .inr ⟨rfl, rfl⟩

lemma Product.outcome_to_stdout (hpath : ∀ name, path = some name → name = "-") :
    (⟨event?, report, some content, path⟩ : Product).outcome world =
      ⟨0, endLine content, some report, []⟩ := by
  have hnone : path.filter (· ≠ "-") = none := by
    rw [Option.filter_eq_none_iff]
    intro name hname
    simp [hpath name hname]
  simp only [outcome, hnone]

lemma filter_ne_hyphen {name : String} (hname : name ≠ "-") :
    (some name).filter (· ≠ "-") = some name :=
  Option.filter_some_pos (decide_eq_true hname)

lemma Product.outcome_to_file {name : String} (hname : name ≠ "-")
    (hfault : world.writeFault? name = none) :
    (⟨event?, report, some content, some name⟩ : Product).outcome world =
      ⟨0, "", some report, [(name, content)]⟩ := by
  simp only [outcome, filter_ne_hyphen hname, hfault]

/-- A content is output if there is nothing against writing it. -/
lemma Product.outcome_code_eq_zero_iff :
    ((⟨event?, report, some content, path⟩ : Product).outcome world).code = 0 ↔
      ∀ name, path = some name → name ≠ "-" → world.writeFault? name = none := by
  by_cases hstdout : ∀ name, path = some name → name = "-"
  · rw [outcome_to_stdout hstdout]
    exact iff_of_true rfl fun name hpath hname => absurd (hstdout name hpath) hname
  · push Not at hstdout
    obtain ⟨name, rfl, hname⟩ := hstdout
    cases hfault : world.writeFault? name with
    | none =>
      rw [outcome_to_file hname hfault]
      refine iff_of_true rfl fun other hother _ => ?_
      rwa [← Option.some.inj hother]
    | some fault =>
      have hcode :
          ((⟨event?, report, some content, some name⟩ : Product).outcome world).code = 1 := by
        simp only [outcome, filter_ne_hyphen hname, hfault]
      refine iff_of_false (hcode ▸ Nat.one_ne_zero) fun h => ?_
      rw [h name rfl hname] at hfault
      cases hfault

lemma Request.execute_code_eq_zero_or_silent (request : Request) :
    (request.execute world).code = 0 ∨ (request.execute world).Silent := by
  unfold execute
  split
  · exact .inl rfl
  · exact .inl rfl
  · split
    next product _ => exact product.code_eq_zero_or_silent
    next => exact .inr ⟨rfl, rfl⟩

/-- Whatever the command line is, a failure is silent. -/
lemma execute_code_eq_zero_or_silent (words : List String) (world : World) :
    (execute words world).code = 0 ∨ (execute words world).Silent := by
  unfold execute
  split
  · exact Request.execute_code_eq_zero_or_silent _
  · exact .inr ⟨rfl, rfl⟩

end

/-! ### Processing -/

section

variable {world : World} {words : List String} {flags arguments : List Argument}
  {input xml : String} {data output : Option String} {options : Options} {asJson : Bool}

lemma readData_eq_ok_iff {path? : Option String} :
    readData world path? = .ok data ↔
      (path? = none ∧ data = none) ∨
        ∃ path text, path? = some path ∧ data = some text ∧ world.Holds path text := by
  cases path? with
  | none => simp [readData, eq_comm]
  | some path =>
    constructor
    · intro h
      cases hread : world.readInput path with
      | error fault => simp [readData, hread, Except.map] at h
      | ok text =>
        rw [readData, hread] at h
        cases h
        exact .inr ⟨path, text, rfl, rfl, World.readInput_eq_ok_iff.1 hread⟩
    · rintro (⟨hnone, -⟩ | ⟨path', text, hpath, rfl, hholds⟩)
      · cases hnone
      · cases hpath
        rw [readData, World.readInput_eq_ok_iff.2 hholds]
        rfl

lemma Apart.positional_unique (hapart : Apart arguments) {input other : String}
    (hinput : .positional input ∈ arguments) (hother : .positional other ∈ arguments) :
    other = input := by
  rw [← positional?_eq_some_iff hapart] at hinput hother
  exact Option.some.inj (hother.symm.trans hinput)

/-- The inputs are what a processing command reads. -/
lemma processInputs_iff (hapart : Apart arguments) (hinput : .positional input ∈ arguments) :
    ProcessInputs world arguments xml data ↔
      world.readInput input = .ok xml ∧
        readData (world.afterReading input) (value? arguments "data") = .ok data := by
  rw [World.readInput_eq_ok_iff, readData_eq_ok_iff]
  constructor
  · intro h
    refine ⟨h.document input hinput, ?_⟩
    cases hpath : value? arguments "data" with
    | none => exact .inl ⟨rfl, h.data_default (value?_eq_none_iff.1 hpath)⟩
    | some path =>
      obtain ⟨text, htext, hholds⟩ :=
        h.data_given input path hinput ((value?_eq_some_iff hapart).1 hpath)
      exact .inr ⟨path, text, rfl, htext, hholds⟩
  · rintro ⟨hdocument, hdata⟩
    constructor
    · intro other hother
      rwa [hapart.positional_unique hinput hother]
    · intro other path hother hpath
      rw [(value?_eq_some_iff hapart).2 hpath] at hdata
      obtain ⟨hnone, -⟩ | ⟨path', text, heq, htext, hholds⟩ := hdata
      · cases hnone
      · cases heq
        rw [hapart.positional_unique hinput hother]
        exact ⟨text, htext, hholds⟩
    · intro hnone
      rw [value?_eq_none_iff.2 hnone] at hdata
      obtain ⟨-, hdata⟩ | ⟨path, text, heq, -⟩ := hdata
      · exact hdata
      · cases heq

/-- What a processing command gives if processing succeeds. -/
def processProduct (input : String) (output : Option String) (asJson : Bool)
    (processed : Processed) : Product where
  event? := some (.processed input processed.diagnostics.length)
  report := diagnosticsReport processed.diagnostics asJson
  content := some processed.xml
  path := output

lemma runProcess_eq_ok_iff {product : Product} :
    runProcess world input data output options asJson = .ok product ↔
      ∃ xml text processed, (world.readInput input = .ok xml ∧
        readData (world.afterReading input) data = .ok text) ∧
          processWithJson xml text options = .ok processed ∧
            product = processProduct input output asJson processed := by
  unfold runProcess
  constructor
  · intro h
    split at h
    · cases h
    next xml hxml =>
      split at h
      · cases h
      next text htext =>
        split at h
        · cases h
        next processed hprocessed =>
          cases h
          exact ⟨xml, text, processed, ⟨hxml, htext⟩, hprocessed, rfl⟩
  · rintro ⟨xml, text, processed, ⟨hxml, htext⟩, hprocessed, rfl⟩
    simp only [hxml, htext, hprocessed]
    rfl

/-- The outcome of a processing command if processing succeeds. -/
def processOutcome (world : World) (flags arguments : List Argument) (input : String)
    (processed : Processed) : Outcome :=
  let report := reportOptions flags arguments
  let product :=
    processProduct input (value? arguments "output") report.diagnosticsJson processed
  (product.outcome world).behind
    (world.log report.verbose [.details, .processed input processed.diagnostics.length])

/-- What a processing command does: it processes its inputs and shows the product, or fails. -/
lemma ProcessLine.execute_cases (h : ProcessLine words flags arguments)
    (hinput : .positional input ∈ arguments) (hoptions : OptionsGiven arguments options)
    (world : World) :
    (∃ xml data processed, ProcessInputs world arguments xml data ∧
      processWithJson xml data options = .ok processed ∧
        execute words world = processOutcome world flags arguments input processed) ∨
      (¬ ∃ xml data processed, ProcessInputs world arguments xml data ∧
        processWithJson xml data options = .ok processed) ∧ (execute words world).code ≠ 0 := by
  have hinputs : ∀ {xml : String} {data : Option String}, ProcessInputs world arguments xml data ↔
      world.readInput input = .ok xml ∧
        readData (world.afterReading input) (value? arguments "data") = .ok data :=
    processInputs_iff h.arguments_apart hinput
  have hexecute : execute words world = (Request.run (.process input (value? arguments "data")
      (value? arguments "output") options) (reportOptions flags arguments)).execute world := by
    rw [execute, h.ofWords? hinput hoptions]
  rw [hexecute, Request.execute, Command.run]
  split
  next product hrun =>
    obtain ⟨xml, data, processed, hread, hprocessed, rfl⟩ := runProcess_eq_ok_iff.1 hrun
    exact .inl ⟨xml, data, processed, hinputs.2 hread, hprocessed, rfl⟩
  next fault hrun =>
    refine .inr ⟨?_, Nat.one_ne_zero⟩
    rintro ⟨xml, data, processed, hread, hprocessed⟩
    rw [runProcess_eq_ok_iff.2 ⟨xml, data, processed, hinputs.1 hread, hprocessed, rfl⟩] at hrun
    cases hrun

lemma outputWritable_iff (hapart : Apart arguments) :
    OutputWritable world arguments ↔
      ∀ name, value? arguments "output" = some name → name ≠ "-" →
        world.writeFault? name = none := by
  simp only [value?_eq_some_iff hapart, OutputWritable]

lemma reportOptions_diagnosticsJson_iff : (reportOptions flags arguments).diagnosticsJson = true ↔
    .flag "diagnostics-json" ∈ flags ++ arguments := by
  rw [reportOptions, Bool.or_eq_true, hasFlag_iff, hasFlag_iff, List.mem_append]

lemma reportOptions_verbose_iff : (reportOptions flags arguments).verbose = true ↔
    .flag "verbose" ∈ flags ++ arguments := by
  rw [reportOptions, Bool.or_eq_true, hasFlag_iff, hasFlag_iff, List.mem_append]

/-- What is left to show of a delivery once the error stream is known. -/
lemma delivers_of_stderr {processed : Processed} {outcome : Outcome} (hapart : Apart arguments)
    (hinput : .positional input ∈ arguments)
    (hstderr : outcome.stderr = some (world.log (reportOptions flags arguments).verbose
      [.details, .processed input processed.diagnostics.length] ++
        diagnosticsReport processed.diagnostics (reportOptions flags arguments).diagnosticsJson))
    (hfile : ∀ path, .valued "output" path ∈ arguments → path ≠ "-" →
      outcome.stdout = "" ∧ outcome.written = [(path, processed.xml)])
    (hstdout : (∀ path, .valued "output" path ∈ arguments → path = "-") →
      outcome.stdout = endLine processed.xml ∧ outcome.written = []) :
    Delivers world flags arguments processed outcome := by
  have hreport := isReport_diagnosticsReport processed.diagnostics
    (reportOptions flags arguments).diagnosticsJson
  rw [reportOptions_diagnosticsJson_iff] at hreport
  have hlogs := world.logs_logged (reportOptions flags arguments).verbose
  simp only [reportOptions_verbose_iff] at hlogs
  rw [World.log_pair] at hstderr
  refine ⟨⟨_, _, _, hstderr, hlogs _, fun other hother => ?_, hreport⟩, fun hsilenced => ?_, hfile,
    fun hnone => ?_⟩
  · rw [hapart.positional_unique hinput hother]
    exact hlogs _
  · simp only [hsilenced.logged_eq, String.empty_append] at hstderr
    exact ⟨_, hstderr, hreport⟩
  · rw [(hstdout hnone).1]
    exact ⟨isLineOf_endLine processed.xml, (hstdout hnone).2⟩

/-- The outcome of a product that can be output. -/
lemma delivers_processOutcome {processed : Processed} (hapart : Apart arguments)
    (hinput : .positional input ∈ arguments) (hwritable : OutputWritable world arguments) :
    Delivers world flags arguments processed
      (processOutcome world flags arguments input processed) := by
  simp only [processOutcome, processProduct]
  by_cases hstdout : ∀ path, value? arguments "output" = some path → path = "-"
  · rw [Product.outcome_to_stdout hstdout]
    refine delivers_of_stderr hapart hinput rfl (fun path hgiven hpath => ?_) fun _ => ⟨rfl, rfl⟩
    exact absurd (hstdout path ((value?_eq_some_iff hapart).2 hgiven)) hpath
  · push Not at hstdout
    obtain ⟨name, hname, hfile⟩ := hstdout
    have hgiven := (value?_eq_some_iff hapart).1 hname
    rw [hname, Product.outcome_to_file hfile (hwritable name hgiven hfile)]
    refine delivers_of_stderr hapart hinput rfl (fun path hpath _ => ⟨rfl, ?_⟩) fun hall =>
      absurd (hall name hgiven) hfile
    rw [(value?_eq_some_iff hapart).2 hpath] at hname
    rw [Option.some.inj hname]
    rfl

/-- A processing command succeeds if its output can be written. -/
lemma processOutcome_code_eq_zero_iff {processed : Processed} (hapart : Apart arguments) :
    (processOutcome world flags arguments input processed).code = 0 ↔
      OutputWritable world arguments := by
  rw [outputWritable_iff hapart]
  exact Product.outcome_code_eq_zero_iff

end

/-- The contract of the command line: a failure is silent, and a processing command delivers what
processing its inputs gives, under the options that its arguments say.  It fails only if an input
cannot be read, the processing fails or the output cannot be written. -/
theorem execute_contract (words : List String) (world : World) :
    ((execute words world).code ≠ 0 →
      (execute words world).stdout = "" ∧ (execute words world).written = []) ∧
    ((∃ flags arguments, ProcessLine words flags arguments) ↔
      ∃ input data output options report, Request.ofWords? words =
        some (.run (.process input data output options) report)) ∧
    ∀ flags arguments, ProcessLine words flags arguments →
      ∃ options, OptionsGiven arguments options ∧
        ((execute words world).code = 0 ↔
          OutputWritable world arguments ∧
            ∃ xml data processed, ProcessInputs world arguments xml data ∧
              processWithJson xml data options = .ok processed) ∧
        ((execute words world).code = 0 →
          ∃ xml data processed, ProcessInputs world arguments xml data ∧
            processWithJson xml data options = .ok processed ∧
              Delivers world flags arguments processed (execute words world)) := by
  have hsilent := (execute_code_eq_zero_or_silent words world).resolve_left
  refine ⟨hsilent, exists_processLine_iff, fun flags arguments hline => ?_⟩
  have hapart := hline.arguments_apart
  obtain ⟨input, hinput⟩ := hline.has_input
  obtain ⟨options, -, hoptions⟩ := exists_processOptions? hapart hline.one_kind
  refine ⟨options, hoptions, ?_⟩
  rcases hline.execute_cases hinput hoptions world with
    ⟨xml, data, processed, hinputs, hprocessed, hexecute⟩ | ⟨hnone, hcode⟩
  · have hcode : (execute words world).code = 0 ↔ OutputWritable world arguments := by
      rw [hexecute, processOutcome_code_eq_zero_iff hapart]
    refine ⟨hcode.trans (iff_self_and.2 fun _ => ⟨xml, data, processed, hinputs, hprocessed⟩),
      fun hzero => ⟨xml, data, processed, hinputs, hprocessed, ?_⟩⟩
    rw [hexecute]
    exact delivers_processOutcome hapart hinput (hcode.1 hzero)
  · exact ⟨iff_of_false hcode fun h => hnone h.2, fun hzero => absurd hzero hcode⟩

/-- A run with a merge field that names no path. -/
def mergePage : String :=
  "<w:r xmlns:w='http://schemas.openxmlformats.org/wordprocessingml/2006/main'>" ++
    "<w:instrText>MERGEFIELD</w:instrText></w:r>"

/-- A document with something to report is processed into another file, with data from the standard
input, while one that is not there gives nothing. -/
theorem execute_contract_merge_only :
    let words := ["--diagnostics-json", "process", "in.xml", "--no-merge-comments",
      "--placeholder=new", "-oout.xml", "--merge-only", "-d", "-"]
    let flags := [Argument.flag "diagnostics-json"]
    let arguments := [.positional "in.xml", .flag "no-merge-comments", .valued "placeholder" "new",
      .valued "output" "out.xml", .flag "merge-only", .valued "data" "-"]
    let world := FileList.world [("in.xml", mergePage)] "\x7b\x7d"
    ProcessLine words flags arguments ∧ (execute words world).code = 0 ∧ world.Silenced ∧
      (∃ options, OptionsGiven arguments options ∧ ∃ xml data processed,
        ProcessInputs world arguments xml data ∧
          processWithJson xml data options = .ok processed ∧
            Delivers world flags arguments processed (execute words world)) ∧
      (execute ["text", "none.xml"] world).code ≠ 0 ∧
        (execute ["text", "none.xml"] world).stdout = "" ∧
          (execute ["text", "none.xml"] world).written = [] := by
  intro words flags arguments world
  have habove : Spells topSpecs ["--diagnostics-json"] flags ∧ Apart flags :=
    (readAll?_eq_some_iff distinct_topSpecs (noRequest_topSpecs_iff.2 (by decide +kernel))).1
      (by decide +kernel)
  have hbelow : Spells processSpecs (words.drop 2) arguments ∧ Apart arguments :=
    (readAll?_eq_some_iff distinct_processSpecs (noRequest_processSpecs_iff.2
      (by decide +kernel))).1 (by decide +kernel)
  have hline : ProcessLine words flags arguments :=
    ⟨⟨["--diagnostics-json"], words.drop 2, rfl, by decide, habove.1, hbelow.1⟩, by decide,
      habove.2, hbelow.2, ⟨"in.xml", List.mem_cons_self⟩, by decide +kernel⟩
  have hcode : (execute words world).code = 0 := by decide +kernel
  have hfail : (execute ["text", "none.xml"] world).code ≠ 0 := by decide +kernel
  obtain ⟨options, hoptions, -, hdelivers⟩ :=
    (execute_contract words world).2.2 flags arguments hline
  exact ⟨hline, hcode, ⟨_, rfl, fun _ => rfl⟩, ⟨options, hoptions, hdelivers hcode⟩, hfail,
    (execute_contract ["text", "none.xml"] world).1 hfail⟩

end WordFields.CommandLine
