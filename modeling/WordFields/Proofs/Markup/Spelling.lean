import WordFields.Proofs.Markup.Ending

/-!
# Events are read as they are written

`Event.markup` spells an event.  Its spelling is read back if the event is one that the reader can
give (`Event.Readable`), if quotes pair up in a tag (`Event.Sealed`), and if what was written does
not look like something else, which happens in three cases (`Event.Proper`):

* A self-closing tag without a name and attributes is `</>`, an end tag.
* A start tag that ends in a slash is taken to be self-closing.
* A document type declaration without a name is refused.

`Event.reread` is what the reader takes an event for in the first two cases.
-/

namespace WordFields.Markup

open Text

/-! ## Spelling events -/

/-- A character that a tag can begin with behind its `<`. -/
def BeginsTag (c : Char) : Prop :=
  c ≠ '!' ∧ c ≠ '?' ∧ c ≠ '/'

instance : DecidablePred BeginsTag := fun c =>
  inferInstanceAs (Decidable (c ≠ '!' ∧ c ≠ '?' ∧ c ≠ '/'))

/-- What ends a tag. -/
def IsTagEnd (ending : List Char) : Prop :=
  ending = ['>'] ∨ ending = ['/', '>']

/-- What the reader guarantees of a tag: the name goes to the first space, and nothing in it ends
the tag. -/
structure IsTag (tag : Tag) : Prop where
  not_space : ∀ c ∈ tag.name, isSpace c = false
  begins : StartsIn BeginsTag tag.name
  begins_rest : StartsIn (isSpace · = true) tag.rest
  fits : tag.name.foldlM tagStep none ≠ none
  closes : (∀ c ∈ tag.rest, isSpace c = true) → Closes tag.name

/-- What can stand between `<?` and `?>`. -/
structure IsInstruction (content : List Char) : Prop where
  begins : StartsIn (· ≠ '>') content
  endsAt : EndsAt "?>".toList content

namespace Event

/-- The spelling of an event. -/
def markup : Event → List Char
  | .opening tag => '<' :: (tag.content ++ ['>'])
  | .selfClosing tag => '<' :: (tag.content ++ ['/', '>'])
  | .closing name => '<' :: '/' :: (name ++ ['>'])
  | .text raw => raw
  | .cdata content => '<' :: '!' :: '[' :: ("CDATA[".toList ++ (content ++ "]]>".toList))
  | .comment content => '<' :: '!' :: '-' :: '-' :: (content ++ "-->".toList)
  | .declaration content => '<' :: '?' :: (content ++ "?>".toList)
  | .processing content => '<' :: '?' :: (content ++ "?>".toList)
  | .doctype content => '<' :: '!' :: ("DOCTYPE".toList ++ ' ' :: (content ++ ['>']))

def isText : Event → Bool
  | .text _ => true
  | _ => false

/-- The tag of an event that begins an element. -/
def tag? : Event → Option Tag
  | .opening tag => some tag
  | .selfClosing tag => some tag
  | _ => none

/-- What the reader guarantees of an event that it gives. -/
def Readable : Event → Prop
  | .opening tag => IsTag tag
  | .selfClosing tag => IsTag tag
  | .closing name => Closes name ∧ endTagName name = name
  | .text raw => raw ≠ [] ∧ '<' ∉ raw
  | .cdata content => EndsAt "]]>".toList content
  | .comment content => EndsAt "-->".toList content
  | .declaration content => isDeclaration content = true ∧ IsInstruction content
  | .processing content => isDeclaration content = false ∧ IsInstruction content
  | .doctype content => Balances content ∧ StartsIn (isSpace · = false) content

/-- Whether a start tag ends where it should. -/
def Sealed (event : Event) : Prop :=
  ∀ tag ∈ event.tag?, Closes tag.content

/-- Whether an event is spelled differently from all other events. -/
def Proper : Event → Prop
  | .opening tag => tag.content.getLast? ≠ some '/'
  | .selfClosing tag => tag.content ≠ []
  | .doctype content => content ≠ []
  | _ => True

/-- The event that the spelling of an event is read as. -/
def reread : Event → Event
  | .opening tag => startTag tag.content
  | .selfClosing tag => if tag.content = [] then .closing [] else .selfClosing tag
  | event => event

lemma markup_of_tag? {event : Event} {tag : Tag} (h : event.tag? = some tag) :
    ∃ ending, IsTagEnd ending ∧ event.markup = '<' :: (tag.content ++ ending) := by
  cases event with
  | opening tag =>
    cases h
    exact ⟨['>'], .inl rfl, rfl⟩
  | selfClosing tag =>
    cases h
    exact ⟨['/', '>'], .inr rfl, rfl⟩
  | _ => cases h

lemma sealed_of_tag? {event : Event} (h : event.tag? = none) : event.Sealed := by
  intro tag htag
  rw [h] at htag
  cases htag

lemma head?_markup {event : Event} (h : event.isText = false) :
    event.markup.head? = some '<' := by
  cases event <;> first | rfl | cases h

lemma markup_ne_nil {event : Event} (h : event.Readable) : event.markup ≠ [] := by
  cases htext : event.isText with
  | false => exact fun hnil => by simpa [hnil] using head?_markup htext
  | true => cases event <;> first | exact h.1 | cases htext

lemma Readable.isTag {event : Event} {tag : Tag} (h : event.Readable)
    (htag : event.tag? = some tag) : IsTag tag := by
  cases event with
  | opening tag =>
    cases htag
    exact h
  | selfClosing tag =>
    cases htag
    exact h
  | _ => cases htag

end Event

/-! ## Tags -/

lemma Tag.content_ofContent (content : List Char) : (Tag.ofContent content).content = content :=
  List.takeWhile_append_dropWhile

lemma isTag_ofContent {content : List Char} (hbegins : StartsIn BeginsTag content)
    (hcloses : Closes content) : IsTag (Tag.ofContent content) := by
  have hcontent := Tag.content_ofContent content
  refine ⟨fun c hc => ?_, ?_, fun c hc => ?_, ?_, fun hspaces => ?_⟩
  · simpa using List.all_eq_true.1 List.all_takeWhile c hc
  · rw [← hcontent] at hbegins
    exact hbegins.of_append
  · simpa using startsIn_dropWhile (fun c => !isSpace c) content c hc
  · rw [← hcontent] at hcloses
    exact foldlM_tagStep_ne_none hcloses
  · rw [← hcontent] at hcloses
    exact closes_of_append (fun c hc => not_quote_of_isSpace (hspaces c hc)) hcloses

namespace IsTag

variable {tag : Tag}

lemma ofContent_content (h : IsTag tag) : Tag.ofContent tag.content = tag := by
  have hspace : ∀ c ∈ tag.name, (!isSpace c) = true := fun c hc => by simp [h.not_space c hc]
  have hstop : tag.rest.takeWhile (fun c => !isSpace c) = [] ∧
      tag.rest.dropWhile (fun c => !isSpace c) = tag.rest := by
    cases hcase : tag.rest with
    | nil => exact ⟨rfl, rfl⟩
    | cons c rest =>
      have hc : isSpace c = true := h.begins_rest c (by rw [hcase]; rfl)
      simp [hc]
  rw [Tag.ofContent, Tag.content, List.takeWhile_append_of_pos hspace,
    List.dropWhile_append_of_pos hspace, hstop.1, hstop.2, List.append_nil]

lemma begins_content (h : IsTag tag) : StartsIn BeginsTag tag.content := by
  refine h.begins.append fun c hc => ?_
  have hspace : isSpace c = true := h.begins_rest c hc
  refine ⟨?_, ?_, ?_⟩ <;>
    · rintro rfl
      exact absurd hspace (by decide)

end IsTag

lemma startTag_append_slash (content : List Char) :
    startTag (content ++ ['/']) = .selfClosing (Tag.ofContent content) := by
  simp [startTag]

lemma startTag_of_getLast? {content : List Char} (h : content.getLast? ≠ some '/') :
    startTag content = .opening (Tag.ofContent content) := by
  unfold startTag
  split
  next reversed hreversed =>
    rw [List.getLast?_eq_head?_reverse, hreversed] at h
    exact absurd rfl h
  next => rfl

/-- A tag of either kind, with what stands between its brackets. -/
lemma startTag_cases (content : List Char) :
    (startTag content = .opening (Tag.ofContent content)) ∨
      ∃ front, content = front ++ ['/'] ∧ startTag content = .selfClosing (Tag.ofContent front) := by
  by_cases hlast : content.getLast? = some '/'
  · obtain ⟨front, rfl⟩ := List.getLast?_eq_some_iff.1 hlast
    exact .inr ⟨front, rfl, startTag_append_slash front⟩
  · exact .inl (startTag_of_getLast? hlast)

/-- Behind a `<` without a mark there is a tag. -/
lemma readEvent_tag {text : List Char} (h : StartsIn BeginsTag text) :
    readEvent ('<' :: text) =
      match cutTag? none text with
      | some (content, rest) => .ok (startTag content, rest)
      | none => .error (.unclosedTag, '<' :: text) := by
  unfold readEvent
  split
  next heq =>
    cases heq
    exact absurd rfl (h _ rfl).1
  next heq =>
    cases heq
    exact absurd rfl (h _ rfl).2.1
  next heq =>
    cases heq
    exact absurd rfl (h _ rfl).2.2
  next heq =>
    cases heq
    rfl
  next hnot => exact absurd rfl (hnot text)

/-! ## What the reader gives -/

/-- What the reading of an event says about the event, and about the text in front of it and behind
it. -/
structure Reads (text : List Char) (event : Event) (rest : List Char) : Prop where
  readable : event.Readable
  stops : event.isText = true → StartsIn (· = '<') rest
  isText_eq : text.head? = some '<' → event.isText = false
  tag : event.tag? ≠ none → text = event.markup ++ rest ∧ event.Sealed

lemma Reads.of_markup {text rest : List Char} {event : Event} (hreadable : event.Readable)
    (htext : event.isText = false) (htag : event.tag? = none) : Reads text event rest where
  readable := hreadable
  stops hyes := by simp [htext] at hyes
  isText_eq _ := htext
  tag hne := absurd htag hne

lemma reads_of_readBang {start text rest : List Char} {event : Event}
    (h : readBang start text = .ok (event, rest)) : Reads start event rest := by
  unfold readBang at h
  split at h
  · split at h
    next content rest' hcut =>
      cases h
      obtain ⟨_, -, hcut⟩ := Option.bind_eq_some_iff.1 hcut
      exact .of_markup (endsAt_of_cut? hcut) rfl rfl
    next => cases h
  · split at h
    next content rest' hcut =>
      cases h
      obtain ⟨_, -, hcut⟩ := Option.bind_eq_some_iff.1 hcut
      exact .of_markup (endsAt_of_cut? hcut) rfl rfl
    next => cases h
  · split_ifs at h
    split at h
    next content rest' hcut =>
      obtain ⟨_, -, hcut⟩ := Option.bind_eq_some_iff.1 hcut
      have hbalances := (cutDoctype?_eq_some_iff.1 hcut).2
      split at h
      · cases h
      cases h
      have hspaces : ∀ c ∈ content.takeWhile isSpace, c ≠ '<' ∧ c ≠ '>' := by
        intro c hc
        have hspace : isSpace c = true := List.all_eq_true.1 List.all_takeWhile c hc
        constructor <;>
          · rintro rfl
            exact absurd hspace (by decide)
      refine .of_markup ⟨?_, startsIn_dropWhile isSpace content⟩ rfl rfl
      rwa [← balances_append_iff hspaces (fun c (hc : c ∈ []) => absurd hc List.not_mem_nil),
        List.append_nil, List.takeWhile_append_dropWhile]
    next => cases h
  · cases h

lemma reads_of_readInstruction {start text rest : List Char} {event : Event}
    (h : readInstruction start text = .ok (event, rest)) : Reads start event rest := by
  unfold readInstruction at h
  split at h
  · cases h
  next hstart =>
    split at h
    next content rest' hcut =>
      have hinstruction : IsInstruction content := by
        refine ⟨?_, endsAt_of_cut? hcut⟩
        rintro c hc rfl
        obtain ⟨tail, rfl⟩ := List.head?_eq_some_iff.1 hc
        rw [(cut?_eq_some hcut []).1] at hstart
        exact hstart rfl
      cases h
      split_ifs with hdeclaration
      · exact .of_markup ⟨hdeclaration, hinstruction⟩ rfl rfl
      · exact .of_markup ⟨by simpa using hdeclaration, hinstruction⟩ rfl rfl
    next => cases h

lemma reads_startTag {content rest : List Char} (hbegins : StartsIn BeginsTag content)
    (hcloses : Closes content) :
    Reads ('<' :: (content ++ '>' :: rest)) (startTag content) rest := by
  rcases startTag_cases content with heq | ⟨front, rfl, heq⟩
  · rw [heq]
    refine ⟨isTag_ofContent hbegins hcloses, fun hyes => (by cases hyes), fun _ => rfl,
      fun _ => ⟨?_, ?_⟩⟩
    · simp [Event.markup, Tag.content_ofContent]
    · rintro tag ⟨⟩
      rwa [Tag.content_ofContent]
  · have hslash : ∀ c ∈ ['/'], c ≠ '"' ∧ c ≠ '\x27' := by simp
    have hfront : Closes front := closes_of_append hslash hcloses
    rw [heq]
    refine ⟨isTag_ofContent hbegins.of_append hfront, fun hyes => (by cases hyes), fun _ => rfl,
      fun _ => ⟨?_, ?_⟩⟩
    · simp [Event.markup, Tag.content_ofContent]
    · rintro tag ⟨⟩
      rwa [Tag.content_ofContent]

/-- The events that the reader gives can be read. -/
theorem reads_of_readEvent {text rest : List Char} {event : Event} (htext : text ≠ [])
    (h : readEvent text = .ok (event, rest)) : Reads text event rest := by
  unfold readEvent at h
  split at h
  · exact reads_of_readBang h
  · exact reads_of_readInstruction h
  · split at h
    next content rest' hcut =>
      cases h
      exact .of_markup ⟨closes_endTagName (cutTag?_eq_some_iff.1 hcut).2,
        endTagName_endTagName content⟩ rfl rfl
    next => cases h
  next text hbang hquestion hslash =>
    split at h
    next content rest' hcut =>
      cases h
      obtain ⟨rfl, hcloses⟩ := cutTag?_eq_some_iff.1 hcut
      have hbegins : StartsIn BeginsTag (content ++ '>' :: rest) := by
        intro c hc
        obtain ⟨text', heq⟩ := List.head?_eq_some_iff.1 hc
        rw [heq] at hbang hquestion hslash
        exact ⟨fun hc => hbang text' (hc ▸ rfl), fun hc => hquestion text' (hc ▸ rfl),
          fun hc => hslash text' (hc ▸ rfl)⟩
      exact reads_startTag hbegins.of_append hcloses
    next => cases h
  next hnot =>
    obtain ⟨c, tail, rfl⟩ := List.exists_cons_of_ne_nil htext
    have hc : c ≠ '<' := fun heq => hnot tail (heq ▸ rfl)
    cases h
    refine ⟨⟨by simp [hc], fun hmem => ?_⟩, fun _ d hd => ?_, fun heq => ?_, fun hne => ?_⟩
    · simpa using List.all_eq_true.1 List.all_takeWhile _ hmem
    · simpa using startsIn_dropWhile (fun c => decide (c ≠ '<')) (c :: tail) d hd
    · exact absurd (Option.some.inj heq) hc
    · exact absurd rfl hne

/-! ## Reading what was written -/

section

variable {tag : Tag}

lemma readEvent_opening (htag : IsTag tag) (hcloses : Closes tag.content) (rest : List Char) :
    readEvent ((Event.opening tag).markup ++ rest) = .ok (startTag tag.content, rest) := by
  have hmarkup : (Event.opening tag).markup ++ rest = '<' :: (tag.content ++ '>' :: rest) := by
    simp [Event.markup]
  have hbegins : StartsIn BeginsTag (tag.content ++ '>' :: rest) :=
    htag.begins_content.append (startsIn_cons.2 (by decide))
  rw [hmarkup, readEvent_tag hbegins, cutTag?_eq_some_iff.2 ⟨rfl, hcloses⟩]

lemma readEvent_selfClosing (htag : IsTag tag) (hcloses : Closes tag.content)
    (hproper : tag.content ≠ []) (rest : List Char) :
    readEvent ((Event.selfClosing tag).markup ++ rest) = .ok (.selfClosing tag, rest) := by
  have hmarkup : (Event.selfClosing tag).markup ++ rest =
      '<' :: ((tag.content ++ ['/']) ++ '>' :: rest) := by
    simp [Event.markup]
  have hbegins : StartsIn BeginsTag ((tag.content ++ ['/']) ++ '>' :: rest) := by
    obtain ⟨c, content, hcontent⟩ := List.exists_cons_of_ne_nil hproper
    have hbegins := htag.begins_content
    rw [hcontent] at hbegins ⊢
    exact hbegins
  rw [hmarkup, readEvent_tag hbegins, cutTag?_eq_some_iff.2 ⟨rfl, closes_append_slash hcloses⟩]
  simp only [startTag_append_slash, htag.ofContent_content]

end

lemma readEvent_closing {name : List Char} (hcloses : Closes name) (hname : endTagName name = name)
    (rest : List Char) :
    readEvent ((Event.closing name).markup ++ rest) = .ok (.closing name, rest) := by
  have hmarkup : (Event.closing name).markup ++ rest = '<' :: '/' :: (name ++ '>' :: rest) := by
    simp [Event.markup]
  have hcut : cutTag? none (name ++ '>' :: rest) = some (name, rest) :=
    cutTag?_eq_some_iff.2 ⟨rfl, hcloses⟩
  rw [hmarkup, readEvent]
  simp only [hcut, hname]

lemma readEvent_text {raw rest : List Char} (hraw : raw ≠ []) (hmem : '<' ∉ raw)
    (hrest : StartsIn (· = '<') rest) : readEvent (raw ++ rest) = .ok (.text raw, rest) := by
  obtain ⟨c, tail, rfl⟩ := List.exists_cons_of_ne_nil hraw
  have hc : c ≠ '<' := fun heq => hmem (heq ▸ List.mem_cons_self)
  have hread : readEvent (c :: tail ++ rest) =
      .ok (.text ((c :: tail ++ rest).takeWhile (· ≠ '<')),
        (c :: tail ++ rest).dropWhile (· ≠ '<')) := by
    rw [List.cons_append, readEvent]
    all_goals exact fun text heq => hc (List.cons.inj heq).1
  have hall : ∀ d ∈ c :: tail, decide (d ≠ '<') = true := fun d hd =>
    decide_eq_true fun heq => hmem (heq ▸ hd)
  have hstop : rest.takeWhile (fun d => decide (d ≠ '<')) = [] ∧
      rest.dropWhile (fun d => decide (d ≠ '<')) = rest := by
    cases rest with
    | nil => exact ⟨rfl, rfl⟩
    | cons d rest =>
      obtain rfl : d = '<' := hrest d rfl
      exact ⟨rfl, rfl⟩
  rw [hread, List.takeWhile_append_of_pos hall, List.dropWhile_append_of_pos hall, hstop.1, hstop.2,
    List.append_nil]

lemma readEvent_instruction {content : List Char} (h : IsInstruction content) (rest : List Char) :
    readEvent ('<' :: '?' :: (content ++ ("?>".toList ++ rest))) =
      .ok (if isDeclaration content then .declaration content else .processing content, rest) := by
  have hstart : startsWith ['>'] (content ++ ("?>".toList ++ rest)) = false := by
    cases content with
    | nil => rfl
    | cons c content =>
      have hc : '>' ≠ c := fun heq => h.begins c rfl heq.symm
      simp [startsWith, after?_cons_of_ne hc]
  rw [readEvent, readInstruction, hstart, h.endsAt rest]
  rfl

lemma readEvent_doctype {content : List Char} (hbalances : Balances content)
    (hstarts : StartsIn (isSpace · = false) content) (hcontent : content ≠ []) (rest : List Char) :
    readEvent ((Event.doctype content).markup ++ rest) = .ok (.doctype content, rest) := by
  have hmarkup : (Event.doctype content).markup ++ rest =
      '<' :: '!' :: 'D' :: ("OCTYPE".toList ++ ' ' :: (content ++ '>' :: rest)) := by
    simp [Event.markup]
  have hcut : cutDoctype? 0 (' ' :: (content ++ '>' :: rest)) = some (' ' :: content, rest) := by
    refine cutDoctype?_eq_some_iff.2 ⟨rfl, ?_⟩
    have happend := @balances_append_iff [' '] content [] (by simp) (by simp)
    rw [List.append_nil, List.singleton_append] at happend
    exact happend.2 hbalances
  have hskip : (' ' :: content).dropWhile isSpace = content := by
    obtain ⟨c, tail, rfl⟩ := List.exists_cons_of_ne_nil hcontent
    have hc : isSpace c = false := hstarts c rfl
    have hspace : isSpace ' ' = true := by decide
    rw [List.dropWhile_cons_of_pos hspace, List.dropWhile_cons_of_neg (by simp [hc])]
  have hafter : afterDoctype? ('D' :: ("OCTYPE".toList ++ ' ' :: (content ++ '>' :: rest))) =
      some (' ' :: (content ++ '>' :: rest)) := rfl
  obtain ⟨c, tail, rfl⟩ := List.exists_cons_of_ne_nil hcontent
  rw [hmarkup, readEvent, readBang]
  · simp only [true_or, if_true, hafter, Option.bind_some, hcut, hskip]
  · decide
  · decide

/-- A document type declaration without a name is refused. -/
lemma readEvent_doctype_nil (rest : List Char) :
    readEvent ((Event.doctype []).markup ++ rest) = .error (.namelessDoctype, '>' :: rest) := by
  have hmarkup : (Event.doctype []).markup ++ rest =
      '<' :: '!' :: 'D' :: ("OCTYPE".toList ++ ' ' :: '>' :: rest) := by
    simp [Event.markup]
  have hafter : afterDoctype? ('D' :: ("OCTYPE".toList ++ ' ' :: '>' :: rest)) =
      some (' ' :: '>' :: rest) := rfl
  have hcut : cutDoctype? 0 (' ' :: '>' :: rest) = some ([' '], rest) := by
    rw [show ' ' :: '>' :: rest = [' '] ++ '>' :: rest from rfl]
    exact cutDoctype?_eq_some_iff.2 ⟨rfl, rfl⟩
  rw [hmarkup, readEvent, readBang]
  · simp only [true_or, if_true, hafter, Option.bind_some, hcut]
    rfl
  · decide
  · decide

/-- The spelling of an event is read as that event again, but for the two tags that look like other
ones. -/
theorem readEvent_markup {event : Event} (hreadable : event.Readable) (hsealed : event.Sealed)
    (hdoctype : event ≠ .doctype []) {rest : List Char}
    (hrest : event.isText = true → StartsIn (· = '<') rest) :
    readEvent (event.markup ++ rest) = .ok (event.reread, rest) := by
  cases event with
  | opening tag => exact readEvent_opening hreadable (hsealed tag rfl) rest
  | selfClosing tag =>
    by_cases hcontent : tag.content = []
    · have hmarkup : (Event.selfClosing tag).markup ++ rest = (Event.closing []).markup ++ rest := by
        simp [Event.markup, hcontent]
      rw [hmarkup, readEvent_closing (by decide) rfl, Event.reread, if_pos hcontent]
    · rw [readEvent_selfClosing hreadable (hsealed tag rfl) hcontent, Event.reread,
        if_neg hcontent]
  | closing name => exact readEvent_closing hreadable.1 hreadable.2 rest
  | text raw => exact readEvent_text hreadable.1 hreadable.2 (hrest rfl)
  | cdata content =>
    have hmarkup : (Event.cdata content).markup ++ rest =
        '<' :: '!' :: '[' :: ("CDATA[".toList ++ (content ++ ("]]>".toList ++ rest))) := by
      simp [Event.markup]
    have hcut : cut? "]]>".toList (content ++ ("]]>".toList ++ rest)) = some (content, rest) :=
      hreadable rest
    rw [hmarkup, readEvent, readBang]
    simp only [after?_append, Option.bind_some, hcut]
    rfl
  | comment content =>
    have hmarkup : (Event.comment content).markup ++ rest =
        '<' :: '!' :: '-' :: (['-'] ++ (content ++ ("-->".toList ++ rest))) := by
      simp [Event.markup]
    have hcut : cut? "-->".toList (content ++ ("-->".toList ++ rest)) = some (content, rest) :=
      hreadable rest
    rw [hmarkup, readEvent, readBang]
    simp only [after?_append, Option.bind_some, hcut]
    rfl
  | declaration content =>
    have hmarkup : (Event.declaration content).markup ++ rest =
        '<' :: '?' :: (content ++ ("?>".toList ++ rest)) := by
      simp [Event.markup]
    rw [hmarkup, readEvent_instruction hreadable.2, if_pos hreadable.1]
    rfl
  | processing content =>
    have hmarkup : (Event.processing content).markup ++ rest =
        '<' :: '?' :: (content ++ ("?>".toList ++ rest)) := by
      simp [Event.markup]
    rw [hmarkup, readEvent_instruction hreadable.2, if_neg (by simp [hreadable.1])]
    rfl
  | doctype content =>
    exact readEvent_doctype hreadable.1 hreadable.2 (fun heq => hdoctype (heq ▸ rfl)) rest

/-- What is read from the spelling of an event, if anything is. -/
lemma eq_of_readEvent_markup {event event' : Event} {rest rest' : List Char}
    (hreadable : event.Readable) (hsealed : event.Sealed)
    (hrest : event.isText = true → StartsIn (· = '<') rest)
    (h : readEvent (event.markup ++ rest) = .ok (event', rest')) :
    event' = event.reread ∧ rest' = rest := by
  have hdoctype : event ≠ .doctype [] := by
    rintro rfl
    rw [readEvent_doctype_nil] at h
    cases h
  rw [readEvent_markup hreadable hsealed hdoctype hrest] at h
  cases h
  exact ⟨rfl, rfl⟩

lemma Event.reread_eq_self {event : Event} (hreadable : event.Readable) (hproper : event.Proper) :
    event.reread = event := by
  cases event with
  | opening tag =>
    rw [reread, startTag_of_getLast? hproper, IsTag.ofContent_content hreadable]
  | selfClosing tag => rw [reread, if_neg hproper]
  | _ => rfl

end WordFields.Markup
