import SelectionFormula.Decimal.Layout
import SelectionFormula.Value.Evaluation

/-!
Plain values: results with every element evaluated.

`Value.force` evaluates all elements of an array, one completely before the next.
The text of a value is the text of its plain value: numbers in their shortest
form, the elements of arrays with commas between them, and nothing for nothing.
-/

namespace SelectionFormula

/-- A value with nothing left to evaluate. -/
inductive Plain where
  | number (value : Binary64)
  | list (elements : List Plain)
  | empty

namespace Plain

mutual

/-- The characters of a plain value. -/
def chars : Plain → List Char
  | number value => value.chars
  | list elements => joined elements
  | empty => []

/-- The characters of several plain values, a comma between two. -/
def joined : List Plain → List Char
  | [] => []
  | e :: es => e.chars ++ further es

/-- The characters of the plain values behind the first one. -/
def further : List Plain → List Char
  | [] => []
  | e :: es => ',' :: e.chars ++ further es

end

/-- The text that replaces a selection. -/
def text (value : Plain) : String :=
  String.ofList value.chars

end Plain

mutual

/-- Evaluate everything that a value holds on to. -/
def Value.force : Value → Sampled Plain
  | .number value => pure (.number value)
  | .array items => return .list (← Expr.forceAll items.elements items.bindings)
  | .empty => pure .empty
termination_by value => (value.held, 1)
decreasing_by
  exact Prod.Lex.right _ Nat.zero_lt_one

/-- Evaluate trees completely, one after the other. -/
def Expr.forceAll : List Expr → Bindings → Sampled (List Plain)
  | [], _ => pure []
  | e :: es, bindings => do
    let value ← e.evaluateHeld bindings
    let plain ← value.val.force
    return plain :: (← Expr.forceAll es bindings)
termination_by es => (sizeOf es, 0)
decreasing_by
  · exact Prod.Lex.left _ _ (by have := value.property; rw [List.cons.sizeOf_spec]; omega)
  · exact Prod.Lex.left _ _ (by rw [List.cons.sizeOf_spec]; omega)

end

theorem Value.force_number (value : Binary64) : (Value.number value).force = pure (.number value) := by
  rw [Value.force]

theorem Value.force_empty : Value.empty.force = pure .empty := by
  rw [Value.force]

theorem Value.force_array (items : LazyArray) :
    (Value.array items).force =
      Plain.list <$> Expr.forceAll items.elements items.bindings := by
  simp [Value.force]

theorem Expr.forceAll_nil (bindings : Bindings) : Expr.forceAll [] bindings = pure [] := by
  rw [Expr.forceAll]

theorem Expr.forceAll_cons (e : Expr) (es : List Expr) (bindings : Bindings) :
    Expr.forceAll (e :: es) bindings = do
      let value ← e.evaluate bindings
      let plain ← value.force
      return plain :: (← Expr.forceAll es bindings) := by
  simp [Expr.forceAll, Expr.evaluate]

/-- The text of a value. -/
def Value.render (value : Value) : Sampled String :=
  return (← value.force).text

end SelectionFormula
