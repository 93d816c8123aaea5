/-!
# Blank characters

A character is *blank* when it has the Unicode property `White_Space`.  Field instructions,
branch texts, numerals and whole lines are all trimmed and tested with this one class.  Markup
has a narrower class of its own (`Markup.isSpace`).

Everything here works on lists of characters, so that each function is a recursion on the text
itself.
-/

namespace WordFields.Text

/-- The ranges of code points that have the property `White_Space`, ends included. -/
def blankRanges : List (Nat × Nat) :=
  [(0x09, 0x0d), (0x20, 0x20), (0x85, 0x85), (0xa0, 0xa0), (0x1680, 0x1680), (0x2000, 0x200a),
    (0x2028, 0x2029), (0x202f, 0x202f), (0x205f, 0x205f), (0x3000, 0x3000)]

def isBlank (c : Char) : Bool :=
  blankRanges.any fun (low, high) => low ≤ c.toNat && c.toNat ≤ high

/-- Whether a text consists of blank characters only; the empty text does. -/
def allBlank (text : List Char) : Bool :=
  text.all isBlank

def trimStart (text : List Char) : List Char :=
  text.dropWhile isBlank

def trimEnd (text : List Char) : List Char :=
  (text.reverse.dropWhile isBlank).reverse

/-- The text without the blank characters at its two ends. -/
def trim (text : List Char) : List Char :=
  trimEnd (trimStart text)

/-- The first longest stretch of characters that are not blank. -/
def firstWord? (text : List Char) : Option (List Char) :=
  match trimStart text with
  | [] => none
  | c :: rest => some ((c :: rest).takeWhile fun d => !isBlank d)

end WordFields.Text
