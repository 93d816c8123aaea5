import WordFields.Markup.Event

/-!
# Reading markup

The reader cuts a text into events.  The character after a `<` tells what kind of construct
begins, and each kind has its own end: a tag ends at the first `>` outside quotes, a comment at
`-->`, a CDATA section at `]]>`, an instruction at `?>`, and a document type declaration at the
`>` that balances the angle brackets inside it.  The reader also keeps the names of the open
elements and refuses an end tag that does not close the innermost of them.
-/

namespace WordFields.Markup

open Text

/-- Why the reader cannot go on. -/
inductive ReaderFault where
  | unknownMarkup
  | unclosedCdata
  | unclosedComment
  | unclosedDoctype
  | unclosedInstruction
  | unclosedTag
  | namelessDoctype
  | mismatchedEndTag (expected found : String)
  | unmatchedEndTag (name : String)
  deriving DecidableEq, Repr

namespace ReaderFault

def message : ReaderFault → String
  | .unknownMarkup => "syntax error: unknown or missed symbol in markup"
  | .unclosedCdata => unclosed "CDATA" "]]>"
  | .unclosedComment => unclosed "comment" "-->"
  | .unclosedDoctype => unclosed "DOCTYPE" ">"
  | .unclosedInstruction => unclosed "processing instruction or xml declaration" "?>"
  | .unclosedTag => unclosed "tag" ">"
  | .namelessDoctype =>
    "ill-formed document: `<!DOCTYPE>` declaration does not contain a name of a document type"
  | .mismatchedEndTag expected found =>
    s!"ill-formed document: expected `</{expected}>`, but `</{found}>` was found"
  | .unmatchedEndTag name =>
    s!"ill-formed document: close tag `</{name}>` does not match any open tag"
where
  unclosed (construct stop : String) : String :=
    s!"syntax error: {construct} not closed: `{stop}` not found before end of input"

end ReaderFault

/-! ## The ends of constructs -/

/-- The content of a tag and what follows its `>`; within a quoted stretch a `>` is content. -/
def cutTag? : Option Char → List Char → Option (List Char × List Char)
  | _, [] => none
  | none, c :: text =>
    if c = '>' then some ([], text)
    else
      (cutTag? (if c = '"' ∨ c = '\x27' then some c else none) text).map
        fun (content, rest) => (c :: content, rest)
  | some quote, c :: text =>
    (cutTag? (if c = quote then none else some quote) text).map
      fun (content, rest) => (c :: content, rest)

/-- The content of a document type declaration and what follows the `>` that ends it; `depth`
angle brackets are open. -/
def cutDoctype? : Nat → List Char → Option (List Char × List Char)
  | _, [] => none
  | depth, c :: text =>
    if c = '>' then
      match depth with
      | 0 => some ([], text)
      | depth + 1 => (cutDoctype? depth text).map fun (content, rest) => (c :: content, rest)
    else
      (cutDoctype? (if c = '<' then depth + 1 else depth) text).map
        fun (content, rest) => (c :: content, rest)

/-- What follows the letters `doctype`, in capitals or not. -/
def afterDoctype? (text : List Char) : Option (List Char) :=
  if (text.take 7).map Char.toUpper = "DOCTYPE".toList then some (text.drop 7) else none

/-! ## Single events -/

/-- An event and the text after it, or a fault and the text at whose start it is reported. -/
abbrev Reading := Except (ReaderFault × List Char) (Event × List Char)

/-- Whether the content of an instruction makes it a declaration. -/
def isDeclaration (content : List Char) : Bool :=
  match after? "xml".toList content with
  | some [] => true
  | some (c :: _) => isSpace c
  | none => false

/-- Reads a construct that starts with `<!`; `text` follows that and `start` begins with it. -/
def readBang (start text : List Char) : Reading :=
  match text with
  | '[' :: text =>
    match (after? "CDATA[".toList text).bind (cut? "]]>".toList) with
    | some (content, rest) => .ok (.cdata content, rest)
    | none => .error (.unclosedCdata, start)
  | '-' :: text =>
    match (after? ['-'] text).bind (cut? "-->".toList) with
    | some (content, rest) => .ok (.comment content, rest)
    | none => .error (.unclosedComment, start)
  | c :: text =>
    if c = 'D' ∨ c = 'd' then
      match (afterDoctype? (c :: text)).bind (cutDoctype? 0) with
      | some (content, rest) =>
        match content.dropWhile isSpace with
        | [] => .error (.namelessDoctype, '>' :: rest)
        | content => .ok (.doctype content, rest)
      | none => .error (.unclosedDoctype, start)
    else .error (.unknownMarkup, start)
  | [] => .error (.unknownMarkup, start)

/-- Reads an instruction or declaration after its `<?`.  The `?` that opens one does not close
it. -/
def readInstruction (start text : List Char) : Reading :=
  if startsWith ['>'] text then .error (.unclosedInstruction, start)
  else
    match cut? "?>".toList text with
    | some (content, rest) =>
      .ok (if isDeclaration content then .declaration content else .processing content, rest)
    | none => .error (.unclosedInstruction, start)

/-- The name in an end tag: its content without the spaces at the end, unless it is all spaces. -/
def endTagName (content : List Char) : List Char :=
  if content.all isSpace then content else (content.reverse.dropWhile isSpace).reverse

/-- The event of a start tag with the given content; one that ends with a slash has no end tag. -/
def startTag (content : List Char) : Event :=
  match content.reverse with
  | '/' :: reversed => .selfClosing (Tag.ofContent reversed.reverse)
  | _ => .opening (Tag.ofContent content)

/-- Reads the event at the start of a text that is not empty. -/
def readEvent (start : List Char) : Reading :=
  match start with
  | '<' :: '!' :: text => readBang start text
  | '<' :: '?' :: text => readInstruction start text
  | '<' :: '/' :: text =>
    match cutTag? none text with
    | some (content, rest) => .ok (.closing (endTagName content), rest)
    | none => .error (.unclosedTag, start)
  | '<' :: text =>
    match cutTag? none text with
    | some (content, rest) => .ok (startTag content, rest)
    | none => .error (.unclosedTag, start)
  | text => .ok (.text (text.takeWhile (· ≠ '<')), text.dropWhile (· ≠ '<'))

/-! ## All events -/

/-- A place in a text of `total` bytes, known by what follows it. -/
structure Place where
  total : Nat
  rest : List Char
  deriving DecidableEq, Repr

/-- The bytes before a place.  They are counted only where an error tells its position. -/
def Place.position (place : Place) : Nat :=
  place.total - byteLength place.rest

/-- An event and the place where it starts. -/
structure PlacedEvent where
  place : Place
  event : Event
  deriving DecidableEq, Repr

/-- How the reading of a text comes to its end. -/
inductive Ending where
  | finished (place : Place)
  | failed (fault : ReaderFault) (place : Place)
  deriving DecidableEq, Repr

/-- Everything the reader meets in a text. -/
structure Transcript where
  events : List PlacedEvent
  ending : Ending
  deriving DecidableEq, Repr

/-- The names of the open elements after an event, the innermost first. -/
def trackNames (openNames : List (List Char)) : Event → Except ReaderFault (List (List Char))
  | .opening tag => .ok (tag.name :: openNames)
  | .closing name =>
    match openNames with
    | [] => .error (.unmatchedEndTag (String.ofList name))
    | innermost :: others =>
      if innermost = name then .ok others
      else .error (.mismatchedEndTag (String.ofList innermost) (String.ofList name))
  | _ => .ok openNames

/-- Reads the rest of a text of `total` bytes.  Each event takes a character at least, so `steps`
need not exceed the length of the text. -/
def readFrom (total : Nat) : Nat → List (List Char) → List Char → Transcript
  | 0, _, text => ⟨[], .finished ⟨total, text⟩⟩
  | steps + 1, openNames, text =>
    if text.isEmpty then ⟨[], .finished ⟨total, text⟩⟩
    else
      match readEvent text with
      | .error (fault, rest) => ⟨[], .failed fault ⟨total, rest⟩⟩
      | .ok (event, rest) =>
        match trackNames openNames event with
        | .error fault => ⟨[], .failed fault ⟨total, text⟩⟩
        | .ok openNames =>
          let transcript := readFrom total steps openNames rest
          { transcript with events := ⟨⟨total, text⟩, event⟩ :: transcript.events }

/-- A byte order mark at the start is no part of the text. -/
def dropByteOrderMark : List Char → List Char
  | '\ufeff' :: text => text
  | text => text

/-- The events of a text. -/
def Transcript.ofText (text : List Char) : Transcript :=
  let text := dropByteOrderMark text
  readFrom (byteLength text) (text.length + 1) [] text

end WordFields.Markup
