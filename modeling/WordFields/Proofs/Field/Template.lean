import Mathlib.Data.List.Infix
import WordFields.Data.Evaluation
import WordFields.Field.Description
import WordFields.Options
import WordFields.Proofs.Field.Marker
import WordFields.Proofs.Instruction.Writing

/-!
# Templates

A template is what an author of a document means: texts, and IF fields whose branches are templates
again, to any depth.  This module has the two readings that do not mention a document, the
description of the fields of a template and the texts that are left when every condition has been
decided, and the way in which a template is cut into *cells*, the parts of a document that stay
together.

A cell is a field without its content or one run of text.  `Template.cells` has a run of its own for
each text and each marker; a document may put several pieces into one run.
-/

namespace WordFields

/-- The field that an item is. -/
def BranchItem.field? : BranchItem → Option IfField
  | .field inner => some inner
  | .text _ => none

/-- Branches with the same content have the same items. -/
lemma Branch.ofItems_injective : Function.Injective Branch.ofItems := by
  intro items items' h
  unfold ofItems at h
  split at h <;> split at h <;> simp_all

/-- A template, as the list of its items. -/
inductive Template where
  | nil
  | text (text : String) (rest : Template)
  | field (condition : Condition) (ifTrue ifFalse rest : Template)

namespace Template

/-- Templates whose texts have a property and whose conditions can be written. -/
def Over (textOk : String → Prop) : Template → Prop
  | nil => True
  | text content rest => textOk content ∧ rest.Over textOk
  | field condition ifTrue ifFalse rest =>
    condition.Writable ∧ ifTrue.Over textOk ∧ ifFalse.Over textOk ∧ rest.Over textOk

instance decidableOver (textOk : String → Prop) [DecidablePred textOk] :
    (template : Template) → Decidable (template.Over textOk)
  | nil => .isTrue trivial
  | text content rest =>
    have := decidableOver textOk rest
    inferInstanceAs (Decidable (textOk content ∧ rest.Over textOk))
  | field condition ifTrue ifFalse rest =>
    have := decidableOver textOk ifTrue
    have := decidableOver textOk ifFalse
    have := decidableOver textOk rest
    inferInstanceAs (Decidable (condition.Writable ∧ ifTrue.Over textOk ∧ ifFalse.Over textOk ∧
      rest.Over textOk))

lemma Over.imp {textOk textOk' : String → Prop} (himp : ∀ text, textOk text → textOk' text)
    {template : Template} (h : template.Over textOk) : template.Over textOk' := by
  induction template with
  | nil => trivial
  | text content rest ih => exact ⟨himp content h.1, ih h.2⟩
  | field condition ifTrue ifFalse rest ihTrue ihFalse ihRest =>
    obtain ⟨hcondition, htrue, hfalse, hrest⟩ := h
    exact ⟨hcondition, ihTrue htrue, ihFalse hfalse, ihRest hrest⟩

/-! ## What a template means -/

/-- The description of a template as the content of a branch. -/
def items : Template → List BranchItem
  | nil => []
  | text content rest => .text content :: rest.items
  | field condition ifTrue ifFalse rest =>
    .field
      { left := condition.left
        operator := condition.operator
        right := condition.right
        ifTrue := Branch.ofItems ifTrue.items
        ifFalse := Branch.ofItems ifFalse.items } :: rest.items

lemma eq_nil_of_items {template : Template} (h : template.items = []) : template = nil := by
  cases template with
  | nil => rfl
  | text content rest => cases h
  | field condition ifTrue ifFalse rest => cases h

/-- The descriptions of the fields of a template that are not inside others. -/
def fields (template : Template) : List IfField :=
  template.items.filterMap BranchItem.field?

/-- The texts that are left when each field is replaced by the branch that its condition selects. -/
def evaluate (context : DataContext) : Template → List String
  | nil => []
  | text content rest => content :: rest.evaluate context
  | field condition ifTrue ifFalse rest =>
    (if condition.holds context then ifTrue.evaluate context else ifFalse.evaluate context) ++
      rest.evaluate context

end Template

/-! ## Texts -/

/-- The result that a word processor shows for an IF field. -/
def shownResult : String := "\x7bIF\x7d"

/-- A text that is content of a branch when it has a run of its own: it is not empty, no marker
occurs in it, and it is not the shown result. -/
structure ContentText (text : String) : Prop where
  ne_empty : text ≠ ""
  unmarked : ∀ marker : Marker, ¬ marker.spelling <:+: text.toList
  not_shown : Text.trim text.toList ≠ shownResult.toList

/-- A text that is content also beside markers: it is not blank and nothing in it looks like the
beginning of a marker. -/
structure PlainText (text : String) : Prop where
  not_blank : Text.allBlank text.toList = false
  plain : '%' ∉ text.toList
  not_shown : Text.trim text.toList ≠ shownResult.toList

instance (text : String) : Decidable (PlainText text) :=
  decidable_of_iff (Text.allBlank text.toList = false ∧ '%' ∉ text.toList ∧
      Text.trim text.toList ≠ shownResult.toList)
    ⟨fun ⟨blank, plain, shown⟩ => ⟨blank, plain, shown⟩,
      fun ⟨blank, plain, shown⟩ => ⟨blank, plain, shown⟩⟩

/-- A text that is content beside markers is content also in a run of its own. -/
lemma PlainText.contentText {text : String} (h : PlainText text) : ContentText text where
  ne_empty := by
    rintro rfl
    cases h.not_blank
  unmarked marker hmarker := by
    obtain ⟨tail, htail⟩ := marker.spelling_eq_cons
    exact h.plain (hmarker.subset (by simp [htail]))
  not_shown := h.not_shown

/-! ## Cells -/

/-- A part of a document that stays together: the runs of a field itself, or one run with text. -/
inductive Cell where
  | field (condition : Condition)
  | run (pieces : List Piece)

namespace Template

/-- The cells of a template in which every text and every marker has a run of its own. -/
def cells : Template → List Cell
  | nil => []
  | text content rest => .run [.text content.toList] :: rest.cells
  | field condition ifTrue ifFalse rest =>
    .field condition :: (ifTrue.cells ++ .run [.marker .elseMarker] ::
      (ifFalse.cells ++ .run [.marker .endMarker] :: rest.cells))

end Template

end WordFields
