import WordFields.Instruction.Operator
import WordFields.Text.Blank

/-!
# Tokens of an instruction

Instruction text consists of quoted literals, comparison operators and words.  A word goes on up
to a blank character, a quote or an operator; a lone exclamation mark is part of a word.  Blank
characters separate tokens and nothing else, so the tokens of a text and the blank characters
between them make up the whole text.
-/

namespace WordFields

open Text

inductive TokenKind where
  | word
  | quoted
  | operator
  deriving DecidableEq, Repr

/-- A token: its text, without the quotes of a literal, and the byte positions between which it
stands, quotes included. -/
structure Token where
  kind : TokenKind
  text : String
  start : Nat
  stop : Nat
  deriving DecidableEq, Repr

namespace Token

/-- Whether a token can be a side of a comparison. -/
def isOperand (token : Token) : Bool :=
  token.kind == .word || token.kind == .quoted

/-- Whether a token is the quoted literal with the given text. -/
def isLiteral (token : Token) (text : String) : Bool :=
  token.kind == .quoted && token.text == text

/-- Whether a token is the bare word with the given text. -/
def isWord (token : Token) (text : String) : Bool :=
  token.kind == .word && token.text == text

/-! ## Cutting a text into tokens -/

/-- Whether a word ends before this text. -/
def endsWord : List Char → Bool
  | [] => true
  | c :: text => isBlank c || c = '"' || (Operator.cutSpelling? (c :: text)).isSome

/-- The word at the start of a text, and what follows it. -/
def cutWord : List Char → List Char × List Char
  | [] => ([], [])
  | c :: text =>
    if endsWord (c :: text) then ([], c :: text)
    else
      let (word, rest) := cutWord text
      (c :: word, rest)

/-- A token that starts at a position and has the given spelling in the instruction. -/
def spelled (kind : TokenKind) (text spelling : List Char) (start : Nat) : Token :=
  ⟨kind, String.ofList text, start, start + byteLength spelling⟩

/-- The tokens of a text that starts at a byte position, or the position of a quote that is never
closed.  Each step takes a character at least, so `steps` need not exceed the length of the
text. -/
def tokenizeFrom : Nat → Nat → List Char → Except Nat (List Token)
  | 0, _, _ => .ok []
  | _ + 1, _, [] => .ok []
  | steps + 1, position, c :: text =>
    if isBlank c then tokenizeFrom steps (position + c.utf8Size) text
    else if c = '"' then
      match cut? ['"'] text with
      | none => .error position
      | some (literal, rest) =>
        let token := spelled .quoted literal ('"' :: literal ++ ['"']) position
        (tokenizeFrom steps token.stop rest).map (token :: ·)
    else
      match Operator.cutSpelling? (c :: text) with
      | some (spelling, rest) =>
        let token := spelled .operator spelling spelling position
        (tokenizeFrom steps token.stop rest).map (token :: ·)
      | none =>
        let (word, rest) := cutWord (c :: text)
        let token := spelled .word word word position
        (tokenizeFrom steps token.stop rest).map (token :: ·)

/-- The tokens of an instruction, or the position of the quote that is never closed. -/
def tokenize (text : List Char) : Except Nat (List Token) :=
  tokenizeFrom (text.length + 1) 0 text

end Token

end WordFields
