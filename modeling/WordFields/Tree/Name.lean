import WordFields.Text.Search

/-!
# Qualified names

The name of an element or attribute as markup writes it: a local name, behind a prefix and a
colon or alone.
-/

namespace WordFields

structure QualifiedName where
  nsPrefix : Option String
  localName : String
  deriving DecidableEq, Repr

namespace QualifiedName

/-- Splits a name at its first colon.  Either part may be empty. -/
def ofChars (raw : List Char) : QualifiedName :=
  match Text.cut? [':'] raw with
  | some (before, after) => ⟨some (String.ofList before), String.ofList after⟩
  | none => ⟨none, String.ofList raw⟩

def ofString (raw : String) : QualifiedName :=
  ofChars raw.toList

/-- The name as markup writes it. -/
def toChars (name : QualifiedName) : List Char :=
  match name.nsPrefix with
  | some nsPrefix => nsPrefix.toList ++ ':' :: name.localName.toList
  | none => name.localName.toList

def toString (name : QualifiedName) : String :=
  String.ofList name.toChars

end QualifiedName

end WordFields
