import WordFields.Json.Decoder

/-!
# Options

What a caller can choose about the two passes over a document.  In JSON every option may be left
out and then has its default.
-/

namespace WordFields

/-- What a second `%else%` in one IF field means. -/
inductive ElsePolicy where
  /-- The field is malformed and skipped. -/
  | reject
  /-- Every `%else%` changes to the other branch. -/
  | toggle
  deriving DecidableEq, Repr

namespace ElsePolicy

def name : ElsePolicy → String
  | .reject => "reject"
  | .toggle => "toggle"

def names : List (String × ElsePolicy) :=
  [("reject", .reject), ("toggle", .toggle)]

def ofName? (name : String) : Option ElsePolicy :=
  names.lookup name

end ElsePolicy

structure Options where
  /-- The text that replaces the result of a merge field. -/
  placeholder : String := ".........."
  /-- Whether a comment with the path goes before each replaced text. -/
  mergeComments : Bool := true
  /-- The result that a word processor shows for an IF field; it is no content of a branch. -/
  ifPlaceholder : String := "\x7bIF\x7d"
  elsePolicy : ElsePolicy := .reject
  /-- Whether the pass over merge fields is run. -/
  mergeFields : Bool := true
  /-- Whether the pass over IF fields is run. -/
  ifFields : Bool := true
  deriving DecidableEq, Repr

namespace Options

/-- The options that have been read so far. -/
structure Draft where
  placeholder : Option String := none
  mergeComments : Option Bool := none
  ifPlaceholder : Option String := none
  elsePolicy : Option ElsePolicy := none
  mergeFields : Option Bool := none
  ifFields : Option Bool := none

namespace Draft

def isFilled (draft : Draft) (key : String) : Bool :=
  match key with
  | "placeholder" => draft.placeholder.isSome
  | "merge_comments" => draft.mergeComments.isSome
  | "if_placeholder" => draft.ifPlaceholder.isSome
  | "else_policy" => draft.elsePolicy.isSome
  | "merge_fields" => draft.mergeFields.isSome
  | "if_fields" => draft.ifFields.isSome
  | _ => false

/-- Reads the member of a key. -/
def fill (draft : Draft) (key : String) : Json.Decoder Draft :=
  open Json.Decoder in
  match key with
  | "placeholder" => string.map fun value => { draft with placeholder := some value }
  | "merge_comments" => bool.map fun value => { draft with mergeComments := some value }
  | "if_placeholder" => string.map fun value => { draft with ifPlaceholder := some value }
  | "else_policy" =>
    (choice ElsePolicy.names).map fun value => { draft with elsePolicy := some value }
  | "merge_fields" => bool.map fun value => { draft with mergeFields := some value }
  | _ => bool.map fun value => { draft with ifFields := some value }

/-- The options, with defaults for those that were not read. -/
def complete (draft : Draft) : Options :=
  let defaults : Options := {}
  { placeholder := draft.placeholder.getD defaults.placeholder
    mergeComments := draft.mergeComments.getD defaults.mergeComments
    ifPlaceholder := draft.ifPlaceholder.getD defaults.ifPlaceholder
    elsePolicy := draft.elsePolicy.getD defaults.elsePolicy
    mergeFields := draft.mergeFields.getD defaults.mergeFields
    ifFields := draft.ifFields.getD defaults.ifFields }

end Draft

/-- How options are read from JSON. -/
def reader : Json.RecordReader Draft Options where
  fields :=
    ["placeholder", "merge_comments", "if_placeholder", "else_policy", "merge_fields", "if_fields"]
  blank := {}
  isFilled := Draft.isFilled
  fill := Draft.fill
  complete draft := some draft.complete
  mayEndEarly := true

def ofJson (text : String) : Except Json.Category Options :=
  Json.decode reader.decoder text

def toJson (options : Options) : Json :=
  .object
    [("placeholder", .string options.placeholder),
      ("merge_comments", .bool options.mergeComments),
      ("if_placeholder", .string options.ifPlaceholder),
      ("else_policy", .string options.elsePolicy.name),
      ("merge_fields", .bool options.mergeFields),
      ("if_fields", .bool options.ifFields)]

end Options

end WordFields
