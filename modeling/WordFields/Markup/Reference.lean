import WordFields.Number.Numeral

/-!
# References

Inside text and attribute values an ampersand starts a reference, which ends at the next semicolon
and stands for one character: five characters have names, and any other is given by its number.
`resolve` replaces references by their characters; `escapeText` and `escapeValue` write the
characters that markup reserves as references.
-/

namespace WordFields.Markup

open Text

/-- Why a reference stands for no character.  Positions are relative to the text around it. -/
inductive ReferenceFault where
  /-- No semicolon comes before the next ampersand or the end of the text. -/
  | unterminated (start stop : Nat)
  | unknownName (start stop : Nat) (name : String)
  | signedNumber
  | missingNumber
  | badDigit
  | numberTooLarge
  | zeroCharacter
  /-- The number is no code point that a character can have. -/
  | noCharacter (code : Nat)
  deriving DecidableEq, Repr

namespace ReferenceFault

def message : ReferenceFault → String
  | .unterminated start stop =>
    s!"Error while escaping character at range {start}..{stop}: Cannot find ';' after '&'"
  | .unknownName start stop name => s!"at {start}..{stop}: unrecognized entity `{name}`"
  | .signedNumber => number "unexpected number sign"
  | .missingNumber => number "cannot parse integer from empty string"
  | .badDigit => number "invalid digit found in string"
  | .numberTooLarge => number "number too large to fit in target type"
  | .zeroCharacter => number "0x0 character is not permitted in XML"
  | .noCharacter code => number s!"`{code}` is not a valid codepoint"
where
  number (problem : String) : String := s!"invalid character reference: {problem}"

end ReferenceFault

/-! ## Reading -/

/-- The characters that have names. -/
def namedCharacters : List (String × Char) :=
  [("lt", '<'), ("gt", '>'), ("amp", '&'), ("apos", '\x27'), ("quot", '"')]

/-- The number behind digits of a radix.  The first character that is no digit, or makes the
number exceed 32 bits, decides. -/
def readCode (radix : Nat) : Nat → List Char → Except ReferenceFault Nat
  | code, [] => .ok code
  | code, c :: digits =>
    match Numeral.digitOf? radix c with
    | none => .error .badDigit
    | some digit =>
      if code * radix + digit < Nat.pow 2 32 then readCode radix (code * radix + digit) digits
      else .error .numberTooLarge

/-- The number of a character reference, decimal or hexadecimal behind an `x`. -/
def readNumber (radix : Nat) : List Char → Except ReferenceFault Nat
  | [] => .error .missingNumber
  | c :: digits =>
    if c = '+' ∨ c = '-' then .error .signedNumber else readCode radix 0 (c :: digits)

/-- The character with a code point; surrogates and numbers beyond the last plane have none. -/
def characterOf (code : Nat) : Except ReferenceFault Char :=
  if code = 0 then .error .zeroCharacter
  else if h : code.isValidChar then .ok (Char.ofNatAux code h)
  else .error (.noCharacter code)

/-- The character a reference stands for, from what is between its ampersand at `start - 1` and
its semicolon. -/
def referenced (start : Nat) (name : List Char) : Except ReferenceFault Char :=
  match name with
  | '#' :: 'x' :: digits => readNumber 16 digits >>= characterOf
  | '#' :: digits => readNumber 10 digits >>= characterOf
  | _ =>
    match namedCharacters.lookup (String.ofList name) with
    | some c => .ok c
    | none => .error (.unknownName start (start + byteLength name) (String.ofList name))

/-- Where the resolution of a text stands: outside a reference, or inside the one that began at
`start` with the characters of `name`, the last one first. -/
inductive ReferenceState where
  | outside
  | inside (start : Nat) (name : List Char)

/-- Resolves the rest of a text of `total` bytes from position `position` on. -/
def resolveFrom (total : Nat) :
    ReferenceState → Nat → List Char → Except ReferenceFault (List Char)
  | .outside, _, [] => .ok []
  | .inside start _, _, [] => .error (.unterminated start total)
  | .outside, position, c :: text =>
    if c = '&' then resolveFrom total (.inside position []) (position + 1) text
    else (resolveFrom total .outside (position + c.utf8Size) text).map (c :: ·)
  | .inside start name, position, c :: text =>
    if c = '&' then .error (.unterminated start total)
    else if c = ';' then
      match referenced (start + 1) name.reverse with
      | .ok d => (resolveFrom total .outside (position + 1) text).map (d :: ·)
      | .error fault => .error fault
    else resolveFrom total (.inside start (c :: name)) (position + c.utf8Size) text

/-- The text with every reference replaced by its character. -/
def resolve (text : List Char) : Except ReferenceFault (List Char) :=
  resolveFrom (byteLength text) .outside 0 text

/-! ## Writing -/

/-- Text with the three characters that could end it or start a reference escaped. -/
def escapeText (text : List Char) : List Char :=
  text.flatMap fun c =>
    if c = '<' then "&lt;".toList
    else if c = '>' then "&gt;".toList
    else if c = '&' then "&amp;".toList
    else [c]

/-- An attribute value with the two quotes escaped as well. -/
def escapeValue (text : List Char) : List Char :=
  text.flatMap fun c =>
    if c = '<' then "&lt;".toList
    else if c = '>' then "&gt;".toList
    else if c = '&' then "&amp;".toList
    else if c = '\x27' then "&apos;".toList
    else if c = '"' then "&quot;".toList
    else [c]

end WordFields.Markup
