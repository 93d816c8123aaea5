import WordFields.Data.Evaluation
import WordFields.Proofs.Number.IntegerText

/-!
# Values that stand for the same integer

Data rarely say whether an identifier is a number or a text, and some tools wrap every value in an
array.  Conditions do not tell these apart.  A value that stands for an integer has one text and
one number (`StandsFor.render`, `StandsFor.numberOf`), and the outcome of a condition is a function
of the two.
-/

namespace WordFields

namespace Json

/-- The values that stand for an integer: the number, the text of its digits, and an array whose
one item is such a value. -/
inductive StandsFor (n : Int) : Json → Prop
  | number : StandsFor n (.number (.integer n))
  | text : StandsFor n (.string (String.ofList (integerText n)))
  | wrapped {value : Json} (item : StandsFor n value) : StandsFor n (.array [value])

variable {n : Int} {value value' : Json}

/-- An array of one item that is not `null` has the text of the item. -/
lemma render_singleton (h : value ≠ .null) : render (.array [value]) = render value := by
  have hitems : renderItems [value] = [render value] := by
    rw [renderItems, renderItems]
    exact h
  calc
    render (.array [value]) = List.intercalate [','] (renderItems [value]) := rfl
    _ = render value := by
      rw [hitems]
      exact List.append_nil _

lemma StandsFor.ne_null (h : StandsFor n value) : value ≠ .null := by
  cases h <;> nofun

lemma StandsFor.render (h : StandsFor n value) : value.render = integerText n := by
  induction h with
  | number => rfl
  | text => exact String.toList_ofList
  | wrapped item ih => rw [render_singleton item.ne_null, ih]

/-- An array is read as the number that its text denotes, the same one its item is. -/
lemma StandsFor.numberOf (h : StandsFor n value) : Json.numberOf (some value) = Double.ofInt n := by
  have htext := h.render
  cases h with
  | number => rfl
  | text =>
    rw [Json.numberOf, String.toList_ofList]
    exact toDouble_integerText n
  | wrapped item =>
    rw [Json.numberOf, htext]
    exact toDouble_integerText n

end Json

/-- The relation of an operator sees the text and the number of a value and nothing else. -/
lemma Operator.holds_congr {value value' : Option Json}
    (htext : Json.textOf value = Json.textOf value')
    (hnumber : Json.numberOf value = Json.numberOf value') (operator : Operator)
    (literal : List Char) : operator.holds value literal = operator.holds value' literal := by
  cases operator <;> simp only [Operator.holds, htext, hnumber]

/-- A condition has the same outcome whichever value for an integer is found at its path. -/
theorem Condition.holds_eq_of_standsFor {n : Int} {value value' : Json}
    (h : Json.StandsFor n value) (h' : Json.StandsFor n value') {context context' : DataContext}
    {path : String} (hpath : context.get? path = some value)
    (hpath' : context'.get? path = some value') (operator right : String) :
    Condition.holds ⟨path, operator, right⟩ context =
      Condition.holds ⟨path, operator, right⟩ context' := by
  have htext : Json.textOf (some value) = Json.textOf (some value') :=
    h.render.trans h'.render.symm
  have hnumber : Json.numberOf (some value) = Json.numberOf (some value') :=
    h.numberOf.trans h'.numberOf.symm
  simp only [Condition.holds, hpath, hpath']
  cases Operator.ofSpelling? operator with
  | none => rfl
  | some operator => exact operator.holds_congr htext hnumber right.toList

/-- An integer that no double holds exactly, as a number and as a text in two arrays. -/
theorem Condition.holds_number_eq_holds_wrapped_text :
    Condition.holds ⟨"order.id", ">", "9007199254740992"⟩
        ⟨.object [("order", .object [("id", .number (.integer 9007199254740993))])]⟩ =
      Condition.holds ⟨"order.id", ">", "9007199254740992"⟩
        ⟨.object [("order", .object
          [("id", .array [.array [.string (String.ofList (integerText 9007199254740993))]])])]⟩ :=
  Condition.holds_eq_of_standsFor .number (.wrapped (.wrapped .text)) rfl rfl _ _

end WordFields
