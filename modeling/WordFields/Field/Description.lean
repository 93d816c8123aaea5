import WordFields.Json.Decoder

/-!
# Descriptions of fields

What a document's fields are, without the document: the paths of its merge fields and, for each IF
field, the condition and the content of both branches.  A branch holds texts and further IF fields
in order; one that is a single text is written as just that text.

The JSON form of a branch is not marked with its kind.  A string is a text, an array is a list of
items, and an item is a string or an IF field, as an object or as the array of its five members.
-/

namespace WordFields

mutual

structure IfField where
  left : String
  operator : String
  right : String
  ifTrue : Branch
  ifFalse : Branch

/-- The content of a branch. -/
inductive Branch where
  | text (text : String)
  | items (items : List BranchItem)

inductive BranchItem where
  | text (text : String)
  | field (field : IfField)

end

/-- The fields of a document. -/
structure FieldList where
  mergeFields : List String
  ifFields : List IfField

namespace Branch

/-- The branch with the given items; a single text is no list. -/
def ofItems : List BranchItem → Branch
  | [.text value] => .text value
  | list => .items list

def isEmpty : Branch → Bool
  | .items list => list.isEmpty
  | .text _ => false

end Branch

/-! ## Writing -/

mutual

def IfField.toJson : IfField → Json
  | ⟨left, operator, right, ifTrue, ifFalse⟩ =>
    .object
      [("left", .string left), ("operator", .string operator), ("right", .string right),
        ("ifTrue", ifTrue.toJson), ("ifFalse", ifFalse.toJson)]

def Branch.toJson : Branch → Json
  | .text text => .string text
  | .items items => .array (itemsToJson items)

def itemsToJson : List BranchItem → List Json
  | [] => []
  | item :: rest => item.toJson :: itemsToJson rest

def BranchItem.toJson : BranchItem → Json
  | .text text => .string text
  | .field field => field.toJson

end

def FieldList.toJson (fields : FieldList) : Json :=
  .object
    [("mergeFields", .array (fields.mergeFields.map .string)),
      ("ifFields", .array (fields.ifFields.map IfField.toJson))]

/-! ## Reading -/

/-- An IF field of which not all members have been read. -/
structure IfField.Draft where
  left : Option String := none
  operator : Option String := none
  right : Option String := none
  ifTrue : Option Branch := none
  ifFalse : Option Branch := none

namespace IfField.Draft

def isFilled (draft : IfField.Draft) (key : String) : Bool :=
  match key with
  | "left" => draft.left.isSome
  | "operator" => draft.operator.isSome
  | "right" => draft.right.isSome
  | "ifTrue" => draft.ifTrue.isSome
  | "ifFalse" => draft.ifFalse.isSome
  | _ => false

/-- The IF field, if all members are there. -/
def complete (draft : IfField.Draft) : Option IfField :=
  match draft.left, draft.operator, draft.right, draft.ifTrue, draft.ifFalse with
  | some left, some operator, some right, some ifTrue, some ifFalse =>
    some { left, operator, right, ifTrue, ifFalse }
  | _, _, _, _, _ => none

end IfField.Draft

mutual

/-- The branch that a value describes. -/
def Branch.ofValue? : Json → Option Branch
  | .string text => some (.text text)
  | .array values => (itemsOfValues? values).map .items
  | _ => none

def itemsOfValues? : List Json → Option (List BranchItem)
  | [] => some []
  | value :: rest =>
    match BranchItem.ofValue? value, itemsOfValues? rest with
    | some item, some items => some (item :: items)
    | _, _ => none

def BranchItem.ofValue? : Json → Option BranchItem
  | .string text => some (.text text)
  | .object members => (draftOfMembers? {} members).bind fun draft => draft.complete.map .field
  | .array [.string left, .string operator, .string right, ifTrue, ifFalse] =>
    match Branch.ofValue? ifTrue, Branch.ofValue? ifFalse with
    | some ifTrue, some ifFalse => some (.field { left, operator, right, ifTrue, ifFalse })
    | _, _ => none
  | _ => none

/-- Adds members to a draft.  A member that comes twice is refused; one of another name is passed
over. -/
def draftOfMembers? : IfField.Draft → List (String × Json) → Option IfField.Draft
  | draft, [] => some draft
  | draft, (key, value) :: rest =>
    if draft.isFilled key then none
    else
      match key, value with
      | "left", .string text => draftOfMembers? { draft with left := some text } rest
      | "operator", .string text => draftOfMembers? { draft with operator := some text } rest
      | "right", .string text => draftOfMembers? { draft with right := some text } rest
      | "ifTrue", value =>
        match Branch.ofValue? value with
        | some branch => draftOfMembers? { draft with ifTrue := some branch } rest
        | none => none
      | "ifFalse", value =>
        match Branch.ofValue? value with
        | some branch => draftOfMembers? { draft with ifFalse := some branch } rest
        | none => none
      | "left", _ => none
      | "operator", _ => none
      | "right", _ => none
      | _, _ => draftOfMembers? draft rest

end

namespace IfField.Draft

/-- Reads the member of a key. -/
def fill (draft : IfField.Draft) (key : String) : Json.Decoder IfField.Draft :=
  open Json.Decoder in
  match key with
  | "left" => string.map fun value => { draft with left := some value }
  | "operator" => string.map fun value => { draft with operator := some value }
  | "right" => string.map fun value => { draft with right := some value }
  | "ifTrue" => (ofValue Branch.ofValue?).map fun value => { draft with ifTrue := some value }
  | _ => (ofValue Branch.ofValue?).map fun value => { draft with ifFalse := some value }

end IfField.Draft

/-- How an IF field at the top is read from JSON. -/
def IfField.reader : Json.RecordReader IfField.Draft IfField where
  fields := ["left", "operator", "right", "ifTrue", "ifFalse"]
  blank := {}
  isFilled := IfField.Draft.isFilled
  fill := IfField.Draft.fill
  complete := IfField.Draft.complete
  mayEndEarly := false

namespace FieldList

/-- A list of fields of which not both parts have been read. -/
structure Draft where
  mergeFields : Option (List String) := none
  ifFields : Option (List IfField) := none

namespace Draft

def isFilled (draft : Draft) (key : String) : Bool :=
  match key with
  | "mergeFields" => draft.mergeFields.isSome
  | "ifFields" => draft.ifFields.isSome
  | _ => false

/-- Reads the member of a key. -/
def fill (draft : Draft) (key : String) : Json.Decoder Draft :=
  open Json.Decoder in
  match key with
  | "mergeFields" => (list string).map fun value => { draft with mergeFields := some value }
  | _ => (list IfField.reader.decoder).map fun value => { draft with ifFields := some value }

/-- The list, if both parts are there. -/
def complete (draft : Draft) : Option FieldList :=
  match draft.mergeFields, draft.ifFields with
  | some mergeFields, some ifFields => some { mergeFields, ifFields }
  | _, _ => none

end Draft

/-- How a list of fields is read from JSON. -/
def reader : Json.RecordReader Draft FieldList where
  fields := ["mergeFields", "ifFields"]
  blank := {}
  isFilled := Draft.isFilled
  fill := Draft.fill
  complete := Draft.complete
  mayEndEarly := false

def ofJson (text : String) : Except Json.Category FieldList :=
  Json.decode reader.decoder text

end FieldList

end WordFields
