import WordFields.Instruction.Token

/-!
# Instructions

The instructions of the two kinds of field that are understood:

* `MERGEFIELD`, the path of a value, anything;
* `IF`, a condition, the literals `"%iftrue%"` and `"%iffalse%"` next to each other, anything.

A condition is an operand, an operator and an operand.  If it is anything else its text is kept
whole, with no operator, and such a condition never holds.
-/

namespace WordFields

open Text

structure Condition where
  left : String
  operator : String
  right : String
  deriving DecidableEq, Repr

inductive Instruction where
  | merge (path : String)
  | conditional (condition : Condition)
  /-- An instruction of another kind of field, known by its first token. -/
  | other (keyword : String)
  deriving DecidableEq, Repr

inductive InstructionFault where
  | unterminatedQuote (position : Nat)
  | empty
  | missingFieldName
  | missingCondition
  | missingLiterals
  deriving DecidableEq, Repr

namespace InstructionFault

def message : InstructionFault → String
  | .unterminatedQuote position => s!"unterminated quoted literal starting at byte {position}"
  | .empty => "instruction is empty"
  | .missingFieldName => "MERGEFIELD has no field name"
  | .missingCondition => "IF has no condition"
  | .missingLiterals => "IF is not followed by \"%iftrue%\" \"%iffalse%\""

end InstructionFault

namespace Instruction

def mergeKeyword : String := "MERGEFIELD"

def ifKeyword : String := "IF"

def trueLiteral : String := "%iftrue%"

def falseLiteral : String := "%iffalse%"

/-! ## By the first word -/

/-- Whether a keyword ends before this character. -/
def endsKeyword (c : Char) : Bool :=
  c = '"' || c = '=' || c = '<' || c = '>'

/-- The first word of an instruction up to a quote or an operator.  It is empty if the word starts
with one, and there is none in a blank text. -/
def keyword? (text : List Char) : Option (List Char) :=
  (firstWord? text).map fun word => word.takeWhile fun c => !endsKeyword c

/-- Whether an instruction starts like that of an IF field. -/
def isConditional (text : List Char) : Bool :=
  keyword? text == some ifKeyword.toList

/-- Whether an instruction starts like that of a merge field. -/
def isMerge (text : List Char) : Bool :=
  keyword? text == some mergeKeyword.toList

/-! ## By the grammar -/

/-- The tokens before the first pair of branch literals. -/
def beforeLiterals? : List Token → Option (List Token)
  | [] => none
  | [_] => none
  | first :: second :: rest =>
    if first.isLiteral trueLiteral && second.isLiteral falseLiteral then some []
    else (beforeLiterals? (second :: rest)).map (first :: ·)

/-- The text between the first and the last of the given tokens. -/
def spanText (text : List Char) (first last : Token) : String :=
  String.ofList (slice first.start last.stop text)

/-- The condition that the tokens of an instruction text make up. -/
def conditionOf (text : List Char) : List Token → Except InstructionFault Condition
  | [] => .error .missingCondition
  | [left, operator, right] =>
    if left.isOperand && operator.kind == .operator && right.isOperand then
      .ok ⟨left.text, operator.text, right.text⟩
    else .ok ⟨spanText text left right, "", ""⟩
  | first :: rest => .ok ⟨spanText text first (rest.getLastD first), "", ""⟩

/-- Reads the tokens after the keyword of an IF field. -/
def readConditional (text : List Char) (tokens : List Token) :
    Except InstructionFault Instruction :=
  match beforeLiterals? tokens with
  | none => .error .missingLiterals
  | some condition => (conditionOf text condition).map .conditional

/-- Reads the tokens after the keyword of a merge field. -/
def readMerge : List Token → Except InstructionFault Instruction
  | name :: _ =>
    if name.isOperand && !name.text.isEmpty then .ok (.merge name.text)
    else .error .missingFieldName
  | [] => .error .missingFieldName

/-- The instruction that a text is. -/
def parse (text : List Char) : Except InstructionFault Instruction :=
  match Token.tokenize text with
  | .error position => .error (.unterminatedQuote position)
  | .ok [] => .error .empty
  | .ok (first :: rest) =>
    if first.isWord mergeKeyword then readMerge rest
    else if first.isWord ifKeyword then readConditional text rest
    else .ok (.other first.text)

end Instruction

end WordFields
