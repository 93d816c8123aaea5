import WordFields.Text.Search

/-!
# Comparison operators

The operators of a condition and their spellings.  Two operators have a second spelling.  Where
one spelling begins another, the longer one is meant.
-/

namespace WordFields

inductive Operator where
  | equal
  | notEqual
  | less
  | greater
  | lessOrEqual
  | greaterOrEqual
  deriving DecidableEq, Repr

namespace Operator

/-- The spellings with their meanings; none of them begins a later one. -/
def spellings : List (String × Operator) :=
  [("<>", .notEqual), ("<=", .lessOrEqual), (">=", .greaterOrEqual), ("==", .equal),
    ("!=", .notEqual), ("=", .equal), ("<", .less), (">", .greater)]

/-- The operator with the given spelling. -/
def ofSpelling? (spelling : String) : Option Operator :=
  spellings.lookup spelling

/-- The spelling at the start of a text, the longest one, and the text after it. -/
def cutSpelling? (text : List Char) : Option (List Char × List Char) :=
  spellings.findSome? fun (spelling, _) =>
    (Text.after? spelling.toList text).map fun rest => (spelling.toList, rest)

end Operator

end WordFields
