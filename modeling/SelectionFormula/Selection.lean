import SelectionFormula.Decimal.Coercion
import SelectionFormula.Formula

/-!
Commands over a list of selections: from their texts, in order, to the texts that
replace them. The selections of a long batch may be evaluated in any order of their
places (`mapOrdered`).
-/

namespace SelectionFormula.Selection

/-- Number the selections from zero on. -/
def index (count : Nat) : List String :=
  (List.range count).map toString

/-- Add a number to each selection's. -/
def step (delta : Binary64) (texts : List String) : List String :=
  texts.map fun text => ((coerceNumber text).add delta).text

/-- Add one to each selection's number. -/
def increment : List String → List String :=
  step Binary64.one

/-- Take one from each selection's number. -/
def decrement : List String → List String :=
  step Binary64.one.neg

/-- Apply a formula to selections, the first of which has a given index. -/
def mapFrom (formula : Formula) : Nat → List String → Sampled (List String)
  | _, [] => pure []
  | index, text :: texts => do
    let replacement ← formula.apply (coerceNumber text) index
    return replacement :: (← mapFrom formula (index + 1) texts)

/-- Evaluate a formula for each selection, with `x` the selection's number and `i`
its index. A text that is no formula is rejected before any is evaluated. -/
def map (formula : String) (texts : List String) : Except Rejection (Sampled (List String)) :=
  (Formula.parse formula).map fun parsed => mapFrom parsed 0 texts

/-! ### Any order of evaluation -/

/-- Apply a formula to selections in an order of their places, and put each
replacement in the place of its selection. -/
def mapInOrder (formula : Formula) (order : List Nat) (texts : List String) :
    Sampled (List String) := do
  let replaced ← order.mapM fun k => do
    let replacement ← formula.apply (coerceNumber (texts.getD k "")) k
    return (k, replacement)
  return (List.range texts.length).filterMap (replaced.lookup ·)

/-- Batches at least this long may be evaluated in any order. -/
def longBatch : Nat := 64

/-- Evaluate a formula for each selection, those of a long batch in a given order.
A text that is no formula is rejected before any is evaluated. -/
def mapOrdered (order : List Nat) (formula : String) (texts : List String) :
    Except Rejection (Sampled (List String)) :=
  (Formula.parse formula).map fun parsed =>
    if longBatch ≤ texts.length then mapInOrder parsed order texts else mapFrom parsed 0 texts

end SelectionFormula.Selection
