import WordFields.Markup.Event

/-!
# Attributes of a tag

The attributes in a start tag are read one after the other: a key, an equals sign and a quoted
value.  A key takes its first character whatever it is and then goes on to the next equals sign or
space, so it need not look like a name; a second attribute with the same key is refused.
-/

namespace WordFields.Markup

open Text

/-- Why the attributes of a tag cannot be read on.  Positions count bytes of the tag's content. -/
inductive AttributeFault where
  | missingEquals (position : Nat)
  | missingValue (position : Nat)
  | unquotedValue (position : Nat)
  | unclosedQuote (position : Nat) (quote : Char)
  | duplicate (position previous : Nat)
  deriving DecidableEq, Repr

namespace AttributeFault

def message : AttributeFault → String
  | .missingEquals position =>
    s!"position {position}: attribute key must be directly followed by `=` or space"
  | .missingValue position =>
    s!"position {position}: `=` must be followed by an attribute value"
  | .unquotedValue position =>
    s!"position {position}: attribute value must be enclosed in `\"` or `'`"
  | .unclosedQuote position quote =>
    s!"position {position}: missing closing quote `{quote}` in attribute value"
  | .duplicate position previous =>
    s!"position {position}: duplicated attribute, previous declaration at position {previous}"

end AttributeFault

/-- An attribute as it is written, references unresolved, and the position of its key. -/
structure RawAttribute where
  key : List Char
  value : List Char
  position : Nat
  deriving DecidableEq, Repr

def skipSpace (text : List Char) : List Char :=
  text.dropWhile isSpace

/-- The quoted value at the start of a text, in a tag whose content has `total` bytes. -/
def readValue (total : Nat) (text : List Char) : Except AttributeFault (List Char × List Char) :=
  match skipSpace text with
  | [] => .error (.missingValue total)
  | quote :: body =>
    if quote = '"' ∨ quote = '\x27' then
      match cut? [quote] body with
      | some (value, rest) => .ok (value, rest)
      | none => .error (.unclosedQuote total quote)
    else .error (.unquotedValue (total - byteLength (quote :: body)))

/-- Whether a key goes on with this character. -/
def continuesKey (c : Char) : Bool :=
  c ≠ '=' && !isSpace c

/-- The attribute whose key starts with `c`, and the text after it. -/
def readAttribute (total : Nat) (seen : List RawAttribute) (c : Char) (text : List Char) :
    Except AttributeFault (RawAttribute × List Char) :=
  let position := total - byteLength (c :: text)
  let key := c :: text.takeWhile continuesKey
  match skipSpace (text.dropWhile continuesKey) with
  | [] => .error (.missingEquals total)
  | d :: rest =>
    if d ≠ '=' then .error (.missingEquals (total - byteLength (d :: rest)))
    else
      match seen.find? fun a => a.key == key with
      | some previous => .error (.duplicate position previous.position)
      | none =>
        match readValue total rest with
        | .ok (value, rest) => .ok (⟨key, value, position⟩, rest)
        | .error fault => .error fault

/-- The attributes that can be read, and what stops the reading if not the end of the tag. -/
structure AttributeList where
  attributes : List RawAttribute
  fault : Option AttributeFault
  deriving DecidableEq, Repr

/-- Reads attributes behind those already seen.  Each attribute takes a character at least, so
`steps` need not exceed the length of the text. -/
def readAttributesFrom (total : Nat) : Nat → List RawAttribute → List Char → AttributeList
  | 0, seen, _ => ⟨seen, none⟩
  | steps + 1, seen, text =>
    match skipSpace text with
    | [] => ⟨seen, none⟩
    | c :: text =>
      match readAttribute total seen c text with
      | .error fault => ⟨seen, some fault⟩
      | .ok (next, rest) => readAttributesFrom total steps (seen ++ [next]) rest

/-- The attributes of a tag in the order in which they are written. -/
def Tag.attributes (tag : Tag) : AttributeList :=
  readAttributesFrom (byteLength tag.content) (tag.rest.length + 1) [] tag.rest

end WordFields.Markup
