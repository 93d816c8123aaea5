import WordFields.Number.Double

/-!
# JSON values

A JSON value as data.  Integers that fit in 64 bits are kept exactly and every other number is a
double.  An object keeps its members as they are written, repeated keys included; `member?` gives
the last member of a key.
-/

namespace WordFields

inductive JsonNumber where
  | integer (n : Int)
  | double (d : Double)
  deriving DecidableEq, Repr

inductive Json where
  | null
  | bool (value : Bool)
  | number (value : JsonNumber)
  | string (value : String)
  | array (items : List Json)
  | object (members : List (String × Json))
  deriving Repr

namespace JsonNumber

/-- The double nearest to a number. -/
def toDouble : JsonNumber → Double
  | .integer n => Double.ofInt n
  | .double d => d

end JsonNumber

namespace Json

def ofNat (n : Nat) : Json :=
  .number (.integer n)

/-- The value of a key; of several members with the key the last one counts. -/
def member? (members : List (String × Json)) (key : String) : Option Json :=
  members.reverse.lookup key

end Json

end WordFields
