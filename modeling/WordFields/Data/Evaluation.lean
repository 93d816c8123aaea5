import WordFields.Data.Context
import WordFields.Instruction.Grammar

/-!
# Evaluation of conditions

The left side of a condition is a path and the right side a literal.  Equality compares texts and
order compares numbers, so an order that involves `nan` never holds.  A condition whose operator
is not one of the known spellings never holds either.
-/

namespace WordFields

namespace Operator

/-- Whether a value stands in the relation of an operator to a literal. -/
def holds (operator : Operator) (value : Option Json) (literal : List Char) : Bool :=
  match operator with
  | .equal => Json.textOf value == literal
  | .notEqual => Json.textOf value != literal
  | .less => (Json.numberOf value).lt (Numeral.toDouble literal)
  | .greater => (Numeral.toDouble literal).lt (Json.numberOf value)
  | .lessOrEqual => (Json.numberOf value).le (Numeral.toDouble literal)
  | .greaterOrEqual => (Numeral.toDouble literal).le (Json.numberOf value)

end Operator

/-- Whether a condition holds in a data context. -/
def Condition.holds (condition : Condition) (context : DataContext) : Bool :=
  match Operator.ofSpelling? condition.operator with
  | some operator => operator.holds (context.get? condition.left) condition.right.toList
  | none => false

end WordFields
