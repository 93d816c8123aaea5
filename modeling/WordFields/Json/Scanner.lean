import WordFields.Json.Fault
import WordFields.Json.Value
import WordFields.Number.Numeral

/-!
# Scanning JSON

Strings and the three words of JSON, and the punctuation around the items of an array and the
members of an object.  Each scanner is given the text from where it starts and returns the text
after what it read.
-/

namespace WordFields.Json

open Text

def isSpace (c : Char) : Bool :=
  c = ' ' || c = '\n' || c = '\t' || c = '\r'

def skipSpace (text : List Char) : List Char :=
  text.dropWhile isSpace

/-- Reads the given characters, the rest of a word whose first letter has been read. -/
def readWord : List Char → List Char → Scan Unit
  | [], text => .ok ((), text)
  | _ :: _, [] => failAt .endInValue []
  | w :: word, c :: text =>
    if w = c then readWord word text else failAt .expectedWord (c :: text)

/-! ## Strings -/

/-- The number written by four hexadecimal digits. -/
def readHex (text : List Char) : Scan Nat :=
  if byteLength text < 4 then failAt .endInString []
  else
    match Numeral.readDigits? 16 0 (text.take 4) with
    | some n => .ok (n, text.drop 4)
    | none => .error ⟨.invalidEscape, byteLength text - 4⟩

/-- The half of a surrogate pair that a number is, if it is one. -/
def isHighSurrogate (n : Nat) : Bool :=
  0xd800 ≤ n && n < 0xdc00

def isLowSurrogate (n : Nat) : Bool :=
  0xdc00 ≤ n && n < 0xe000

/-- The escape that must follow one of a high surrogate. -/
def readLowSurrogate (text : List Char) : Scan Nat :=
  match text with
  | [] => failAt .endInString []
  | '\\' :: text =>
    match text with
    | [] => failAt .endInString []
    | 'u' :: text =>
      match readHex text with
      | .error fault => .error fault
      | .ok (n, text) =>
        if isLowSurrogate n then .ok (n, text) else failBefore .loneSurrogate text
    | text => failAt .incompleteSurrogatePair text
  | text => failAt .incompleteSurrogatePair text

/-- The character of a `\u` escape after its two first characters.  Characters beyond the first
plane take two escapes. -/
def readUnicode (text : List Char) : Scan Char :=
  match readHex text with
  | .error fault => .error fault
  | .ok (n, text) =>
    if isLowSurrogate n then failBefore .loneSurrogate text
    else if isHighSurrogate n then
      match readLowSurrogate text with
      | .error fault => .error fault
      | .ok (low, text) =>
        .ok (Char.ofNat (0x10000 + (n - 0xd800) * 0x400 + (low - 0xdc00)), text)
    else .ok (Char.ofNat n, text)

/-- The characters that have an escape of one letter. -/
def letterEscapes : List (Char × Char) :=
  [('"', '"'), ('\\', '\\'), ('/', '/'), ('b', '\x08'), ('f', '\x0c'), ('n', '\n'), ('r', '\r'),
    ('t', '\t')]

/-- The character of an escape after its backslash, where `unicode` reads the longer escapes. -/
def readEscape (unicode : List Char → Scan Char) : List Char → Scan Char
  | [] => failAt .endInString []
  | c :: text =>
    if c = 'u' then unicode text
    else
      match letterEscapes.lookup c with
      | some d => .ok (d, text)
      | none => failAt .invalidEscape (c :: text)

/-- The rest of a string up to its closing quote.  Each step takes a character at least. -/
def readStringFrom (unicode : List Char → Scan Char) : Nat → List Char → Scan (List Char)
  | 0, _ => failAt .endInString []
  | _ + 1, [] => failAt .endInString []
  | steps + 1, c :: text =>
    if c = '"' then .ok ([], text)
    else if c = '\\' then
      match readEscape unicode text with
      | .error fault => .error fault
      | .ok (d, text) =>
        (readStringFrom unicode steps text).map fun (value, rest) => (d :: value, rest)
    else if c.toNat < 0x20 then failAt .controlCharacter (c :: text)
    else (readStringFrom unicode steps text).map fun (value, rest) => (c :: value, rest)

/-- The string whose opening quote has been read. -/
def readString (text : List Char) : Scan String :=
  (readStringFrom readUnicode (text.length + 1) text).map
    fun (value, rest) => (String.ofList value, rest)

/-- Passes over a string; an escape may be half of a surrogate pair, since nobody asks for its
character. -/
def skipString (text : List Char) : Scan String :=
  let skipUnicode text := (readHex text).map fun (_, rest) => (' ', rest)
  (readStringFrom skipUnicode (text.length + 1) text).map fun (_, rest) => ("", rest)

/-! ## Arrays and objects -/

/-- Reads items up to the closing bracket, the first one starting at the text.  Each item takes a
character at least. -/
def readItems {α : Type} (item : List Char → Scan α) : Nat → List Char → Scan (List α)
  | 0, text => failAt .endInList text
  | steps + 1, text =>
    match item text with
    | .error fault => .error fault
    | .ok (value, rest) =>
      match skipSpace rest with
      | [] => failAt .endInList []
      | ']' :: rest => .ok ([value], rest)
      | ',' :: rest =>
        match skipSpace rest with
        | [] => failAt .endInValue []
        | ']' :: rest => failAt .trailingComma (']' :: rest)
        | rest => (readItems item steps rest).map fun (values, rest) => (value :: values, rest)
      | rest => failAt .expectedListSeparator rest

/-- Reads an array after its opening bracket. -/
def readArray {α : Type} (item : List Char → Scan α) (text : List Char) : Scan (List α) :=
  match skipSpace text with
  | [] => failAt .endInList []
  | ']' :: rest => .ok ([], rest)
  | text => readItems item text.length text

/-- Reads the colon behind a key. -/
def readColon (text : List Char) : Scan Unit :=
  match skipSpace text with
  | [] => failAt .endInObject []
  | ':' :: rest => .ok ((), rest)
  | rest => failAt .expectedColon rest

/-- Reads members up to the closing brace, the first one starting at the text.  `key` reads a key
after its opening quote and `member` what follows a key, into a state that is passed on. -/
def readMembers {σ : Type} (key : List Char → Scan String)
    (member : σ → String → List Char → Scan σ) : Nat → σ → List Char → Scan σ
  | 0, _, text => failAt .endInObject text
  | steps + 1, state, text =>
    match text with
    | '"' :: text =>
      match key text with
      | .error fault => .error fault
      | .ok (name, text) =>
        match member state name text with
        | .error fault => .error fault
        | .ok (state, rest) =>
          match skipSpace rest with
          | [] => failAt .endInObject []
          | '\x7d' :: rest => .ok (state, rest)
          | ',' :: rest =>
            match skipSpace rest with
            | [] => failAt .endInValue []
            | '\x7d' :: rest => failAt .trailingComma ('\x7d' :: rest)
            | rest => readMembers key member steps state rest
          | rest => failAt .expectedObjectSeparator rest
    | text => failAt .keyNotString text

/-- Reads an object after its opening brace. -/
def readObject {σ : Type} (key : List Char → Scan String)
    (member : σ → String → List Char → Scan σ) (state : σ) (text : List Char) : Scan σ :=
  match skipSpace text with
  | [] => failAt .endInObject []
  | '\x7d' :: rest => .ok (state, rest)
  | text => readMembers key member text.length state text

end WordFields.Json
