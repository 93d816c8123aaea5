import WordFields.Proofs.Field.Shortening
import WordFields.Proofs.Word.Thinning
import WordFields.Session

/-!
# The fields of a simplified document

Simplification takes runs out, so the places of all later runs change, and a field opens where its
instruction is in the run after its first mark.  The comparison is made in two steps.  The document
as it was is read along the runs that stay, and finds what it found along all runs
(`Thins.shortens`).  Along these runs the thinner document gives the same answers (`Thins.agree`).

In the end the same fields are extracted (`extractFields_simplify`), unless simplification brings a
first mark and an instruction together that did not make a field before.
-/

namespace WordFields.Document

variable {d d' : Document} {shed : List NodeId} {options : Options}

namespace Thins

/-! ## Answers about runs -/

section

variable {top : NodeId}

lemma runTexts_eq (h : d.Thins d' shed) (hd : d.WellFormed) (htop : top ∈ d.attachedNodes) :
    d'.runTexts top = d.runTexts top := by
  have hchildren : (d.wordDescendants top "t").flatMap d'.children =
      (d.wordDescendants top "t").flatMap d.children := by
    refine List.flatMap_congr fun x hx => ?_
    obtain ⟨hbelow, hword⟩ := mem_wordDescendants.1 hx
    have hattached := mem_descendants_root_of_below hd htop (hd.mem_descendants.1 hbelow)
    exact h.children_eq x hattached (.inl hword) x (.inl rfl)
  have htexts : d'.wordDescendants top "t" = d.wordDescendants top "t" :=
    h.wordDescendants_eq hd htop (by decide)
  simp only [runTexts, htexts, hchildren, h.sheds.kind_eq]

lemma hasMarker_eq (h : d.Thins d' shed) (hd : d.WellFormed) (htop : top ∈ d.attachedNodes) :
    d'.hasMarker top = d.hasMarker top := by
  rw [hasMarker, hasMarker, h.runTexts_eq hd htop]

end

lemma mem_of_runInstruction? (hd : d.WellFormed) {run instruction : NodeId}
    (hrun : run ∈ d.attachedNodes) (h : d.runInstruction? run = some instruction) :
    instruction ∈ d.descendants root ∧ d.isWord instruction "instrText" = true := by
  rw [runInstruction?, firstWordDescendant?_eq_head?] at h
  obtain ⟨hbelow, hword⟩ := mem_wordDescendants.1 (List.mem_of_head? h)
  exact ⟨mem_descendants_root_of_below hd hrun (hd.mem_descendants.1 hbelow), hword⟩

lemma textContent_runInstruction? (h : d.Thins d' shed) (hd : d.WellFormed)
    {run instruction : NodeId} (hrun : run ∈ d.attachedNodes)
    (hinstruction : d.runInstruction? run = some instruction) :
    d'.textContent instruction = d.textContent instruction := by
  obtain ⟨hattached, hword⟩ := mem_of_runInstruction? hd hrun hinstruction
  exact h.textContent_eq hd hattached (.inr hword)

variable {runs : List NodeId}

lemma opensIf_eq (h : d.Thins d' shed) (hd : d.WellFormed) (hruns : runs ⊆ d.attachedNodes)
    (index : Nat) : d'.opensIf runs index = d.opensIf runs index := by
  unfold opensIf
  split
  next run next hrun hnext =>
    have hattached := hruns (List.mem_of_getElem? hnext)
    rw [h.runMark?_eq hd (hruns (List.mem_of_getElem? hrun)), h.runInstruction?_eq hd hattached]
    cases hinstruction : d.runInstruction? next with
    | none => rfl
    | some instruction =>
      rw [Option.any_some, Option.any_some,
        h.textContent_runInstruction? hd hattached hinstruction]
  next => rfl

lemma readHeader_eq (h : d.Thins d' shed) (hd : d.WellFormed) (hroot : d.parent root = none)
    (hruns : runs ⊆ d.attachedNodes) {index : Nat} (hopens : d.opensIf runs index = true) :
    d'.readHeader runs index = d.readHeader runs index := by
  obtain ⟨run, next, instruction, hrun, hnext, -, hinstruction, -⟩ := opensIf_iff.1 hopens
  have hnextAttached := hruns (List.mem_of_getElem? hnext)
  obtain ⟨hattached, hword⟩ := mem_of_runInstruction? hd hnextAttached hinstruction
  have hpart := isFieldPart_iff.2 ⟨_, by decide, hword⟩
  have hat : d.instructionAt runs index = (instruction, d.textContent instruction) := by
    simp [instructionAt, hnext, hinstruction]
  have hat' : d'.instructionAt runs index = (instruction, d.textContent instruction) := by
    simp [instructionAt, hnext, h.runInstruction?_eq hd hnextAttached, hinstruction,
      h.textContent_runInstruction? hd hnextAttached hinstruction]
  refine readHeader_congr hat hat' ?_ fun triad htriad => ?_
  · rw [h.locateTriad_eq hd hroot hattached hpart]
  · obtain ⟨-, hseparator, hending⟩ := locateTriad_eq_ok_iff.1 htriad
    have hseparatorAttached := mem_descendants_of_locateNext? hd hroot hattached hseparator
    exact h.enclosingRun?_eq hd (mem_descendants_of_locateNext? hd hroot hseparatorAttached hending)
      (isFieldPart_iff.2 ⟨_, by decide, isWord_of_locateNext? hending⟩)

lemma agree (h : d.Thins d' shed) (hd : d.WellFormed) (hroot : d.parent root = none)
    (hruns : runs ⊆ d.attachedNodes) :
    Agree d d' options runs (fun content content' => content' = content)
      (fun field field' => field' = field) :=
  .of_eq (h.opensIf_eq hd hruns) (fun _ => h.readHeader_eq hd hroot hruns)
    (fun _ hrun => h.hasMarker_eq hd (hruns hrun))
    (fun _ hrun _ => by rw [h.runTexts_eq hd (hruns hrun)])
    (fun _ hrun => h.runText_eq hd (hruns hrun))

/-! ## All fields -/

lemma shortens (h : d.Thins d' shed) (hd : d.WellFormed)
    (hgapless : d.Gapless d.runs (· ∈ d'.runs)) : d.Shortens d.runs (· ∈ d'.runs) where
  idle _ hrun hout := h.isIdle_of_not_mem hd hrun (of_decide_eq_false hout)
  gapless := hgapless

lemma describe_ifSpans (h : d.Thins d' shed) (hd : d.WellFormed) (hroot : d.parent root = none)
    (hgapless : d.Gapless d.runs (· ∈ d'.runs)) (options : Options) :
    (d'.ifSpans options).1.map IfSpan.describe = (d.ifSpans options).1.map IfSpan.describe := by
  have hruns : d'.runs ⊆ d.attachedNodes := by
    rw [h.runs_eq hd]
    intro run hrun
    obtain ⟨hattached, -⟩ := mem_wordElements.1 (List.mem_of_mem_filter hrun)
    exact List.mem_cons_of_mem _ hattached
  have hsame : (d'.readIfsFrom options d'.runs (d'.runs.length + 1) 0 []).1 =
      (d.readIfsFrom options d'.runs (d'.runs.length + 1) 0 []).1 := by
    obtain ⟨hfields, -⟩ := (h.agree hd hroot hruns).readIfsFrom (d'.runs.length + 1) 0 []
    exact List.forall₂_eq_eq_eq ▸ hfields.flip
  have hshort := (h.shortens hd hgapless).describe_readIfsFrom hd options [] []
    (.zero d.runs _) (Nat.le_succ d.runs.length) (Nat.le_succ _)
  rw [← h.runs_eq hd] at hshort
  rw [ifSpans, ifSpans, hsame]
  exact hshort

lemma mergeFields_eq (h : d.Thins d' shed) (hd : d.WellFormed) :
    d'.mergeFields = d.mergeFields := by
  rw [mergeFields, mergeFields, h.instructions_eq hd]
  refine List.filterMap_congr fun instruction hinstruction => ?_
  obtain ⟨hattached, hword⟩ := mem_wordElements.1 hinstruction
  simp only [h.textContent_eq hd hattached (.inr hword)]

end Thins

lemma fst_extractFields (d : Document) (options : Options) :
    (d.extractFields options).1 = ⟨d.mergePaths, (d.ifSpans options).1.map IfSpan.describe⟩ :=
  rfl

/-- Extraction finds the same merge fields after simplification, and the same IF fields if nothing
is taken out between a first mark and an instruction. -/
theorem extractFields_simplify (hd : d.WellFormed) (hroot : d.parent root = none)
    (hin : ∀ x ∈ d.descendants root, d.InElements x) (hlook : d.PresentationApart)
    (hplace : d.PartsInPlace) (options : Options) :
    (d.simplify.extractFields options).1.mergeFields = (d.extractFields options).1.mergeFields ∧
      (d.Gapless d.runs (· ∈ d.simplify.runs) →
        (d.simplify.extractFields options).1 = (d.extractFields options).1) := by
  obtain ⟨shed, hthins⟩ := exists_thins_simplify hd hroot hin hlook hplace
  have hpaths : d.simplify.mergePaths = d.mergePaths := by
    rw [mergePaths, mergePaths, hthins.mergeFields_eq hd]
  simp only [fst_extractFields, hpaths, true_and]
  intro hgapless
  rw [hthins.describe_ifSpans hd hroot hgapless]

def slackMarkup : String := Text.concat
  ["<w:p xmlns:w=\"http://schemas.openxmlformats.org/wordprocessingml/2006/main\">",
    "<w:r><w:rPr/><w:fldChar w:fldCharType=\"begin\"/></w:r>",
    "<w:r><w:instrText>IF a = 1 \"%iftrue%\" \"%iffalse%\"</w:instrText></w:r>",
    "<w:r><w:fldChar w:fldCharType=\"separate\"/></w:r><w:r/>",
    "<w:r><w:fldChar w:fldCharType=\"end\"/></w:r><w:r><w:rPr/> </w:r>",
    "<w:r><w:t>yes</w:t></w:r><w:p><w:r><w:br/></w:r></w:p><w:r><w:t>%end%</w:t></w:r></w:p>"]

/-- A page with an IF field that has runs without content in its result and in its branch. -/
def slackPage : Document :=
  ofForest [.word "p" [wordDeclaration]
    [.word "r" [] [.word "rPr" [] [], .word "fldChar" [FieldMark.beginning.attribute] []],
      (RunContent.instruction "IF a = 1 \"%iftrue%\" \"%iffalse%\"").tree,
      (RunContent.mark .separator).tree, .word "r" [] [], (RunContent.mark .ending).tree,
      .word "r" [] [.word "rPr" [] [], .node (.text " ") []],
      (RunContent.text "yes").tree, .word "p" [] [.word "r" [] [.word "br" [] []]],
      (RunContent.text "%end%").tree]]

lemma parse_slackMarkup : Markup.parse slackMarkup = .ok slackPage :=
  Markup.parse_concat [_, _, _, _, _, _] (by decide +kernel)

/-- Three runs and a paragraph are taken out, and all runs of the branch get other places. -/
theorem extractFields_simplify_slack :
    Markup.parse slackMarkup = .ok slackPage ∧
      slackPage.WellFormed ∧ slackPage.parent root = none ∧
      (∀ x ∈ slackPage.descendants root, slackPage.InElements x) ∧ slackPage.PresentationApart ∧
      slackPage.PartsInPlace ∧ slackPage.Gapless slackPage.runs (· ∈ slackPage.simplify.runs) ∧
      slackPage.runs = [2, 5, 8, 10, 11, 13, 16, 20, 22] ∧
      slackPage.simplify.runs = [2, 5, 8, 11, 16, 22] ∧
      (slackPage.extractFields {}).1.ifFields.length = 1 ∧
      (slackPage.simplify.extractFields {}).1 = (slackPage.extractFields {}).1 := by
  have hd : slackPage.WellFormed := (displays_ofForest _).wellFormed
  have hroot : slackPage.parent root = none := by decide +kernel
  have hin : ∀ x ∈ slackPage.descendants root, slackPage.InElements x := fun x _ =>
    hd.inElements (by decide +kernel) x
  have hlook : slackPage.PresentationApart := ⟨by decide +kernel, by decide +kernel⟩
  have hplace : slackPage.PartsInPlace := ⟨by decide +kernel, by decide +kernel⟩
  have hruns : slackPage.runs = [2, 5, 8, 10, 11, 13, 16, 20, 22] := by decide +kernel
  have hgapless : slackPage.Gapless slackPage.runs (· ∈ slackPage.simplify.runs) := by
    intro before first gap next after instruction hsplit hmark hinstruction _ _
    have hfirst : first = 2 := by
      have honly : ∀ run ∈ slackPage.runs, slackPage.runMark? run = some .beginning → run = 2 := by
        decide +kernel
      exact honly first (by simp [hsplit]) hmark
    have hnext : next = 5 := by
      have honly : ∀ run ∈ slackPage.runs, slackPage.runInstruction? run ≠ none → run = 5 := by
        decide +kernel
      exact honly next (by simp [hsplit]) (by simp [hinstruction])
    -- the run with the first mark is the first of all, the one with the instruction the second
    rw [hruns, hfirst, hnext] at hsplit
    cases before with
    | nil =>
      obtain ⟨-, hrest⟩ := List.cons.inj hsplit
      cases gap with
      | nil => rfl
      | cons run gap =>
        obtain ⟨-, hrest⟩ := List.cons.inj hrest
        have hmem : 5 ∈ [8, 10, 11, 13, 16, 20, 22] := hrest ▸ by simp
        exact absurd hmem (by decide)
    | cons run before =>
      obtain ⟨-, hrest⟩ := List.cons.inj hsplit
      have hmem : 2 ∈ [5, 8, 10, 11, 13, 16, 20, 22] := hrest ▸ by simp
      exact absurd hmem (by decide)
  exact ⟨parse_slackMarkup, hd, hroot, hin, hlook, hplace, hgapless, hruns, by decide +kernel,
    by decide +kernel, (extractFields_simplify hd hroot hin hlook hplace {}).2 hgapless⟩

def gappedMarkup : String := Text.concat
  ["<w:p xmlns:w=\"http://schemas.openxmlformats.org/wordprocessingml/2006/main\">",
    "<w:r><w:fldChar w:fldCharType=\"begin\"/></w:r><w:r/>",
    "<w:r><w:instrText>IF a = 1 \"%iftrue%\" \"%iffalse%\"</w:instrText></w:r>",
    "<w:r><w:fldChar w:fldCharType=\"separate\"/></w:r>",
    "<w:r><w:fldChar w:fldCharType=\"end\"/></w:r>",
    "<w:r><w:t>yes</w:t></w:r><w:r><w:t>%end%</w:t></w:r></w:p>"]

/-- A page with an empty run between the first mark of an IF field and its instruction. -/
def gappedPage : Document :=
  ofForest [.word "p" [wordDeclaration]
    [(RunContent.mark .beginning).tree, .word "r" [] [],
      (RunContent.instruction "IF a = 1 \"%iftrue%\" \"%iffalse%\"").tree,
      (RunContent.mark .separator).tree, (RunContent.mark .ending).tree,
      (RunContent.text "yes").tree, (RunContent.text "%end%").tree]]

lemma parse_gappedMarkup : Markup.parse gappedMarkup = .ok gappedPage :=
  Markup.parse_concat [_, _, _, _, _, _] (by decide +kernel)

/-- Even without markup of presentation, simplification can bring the first mark and the
instruction of a field together, which is then found for the first time. -/
theorem not_extractFields_simplify_gapped :
    ¬ ∀ (text : String) (d : Document) (options : Options), Markup.parse text = .ok d →
      (∀ top ∈ d.attachedNodes, ¬ d.IsPresentation top) → d.PartsInPlace →
      (d.simplify.extractFields options).1 = (d.extractFields options).1 := by
  intro h
  have hsame := h gappedMarkup gappedPage {} parse_gappedMarkup (by decide +kernel)
    ⟨by decide +kernel, by decide +kernel⟩
  have hbefore : (gappedPage.extractFields {}).1.ifFields.length = 0 := by decide +kernel
  have hafter : (gappedPage.simplify.extractFields {}).1.ifFields.length = 1 := by decide +kernel
  rw [hsame, hbefore] at hafter
  cases hafter

end WordFields.Document
