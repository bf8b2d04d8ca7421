import SelectionFormula.Value.Operation
import SelectionFormula.Elementary.Circular
import SelectionFormula.Expr.MathFunction
import SelectionFormula.Draws

/-!
What the functions do to numbers.

`MathFunction.apply` takes any number of arguments: a missing first or second one
counts as not-a-number and further ones are ignored, except by `hypot`, `max` and
`min`, which take them all. Only `random` draws.
-/

namespace SelectionFormula

namespace Binary64

/-- How many of a word's leading bits are zero. -/
def leadingZeros (x : Binary64) : Binary64 :=
  ofNat x.toWord.clz.toNat

/-- The product of two words. -/
def wordProduct (x y : Binary64) : Binary64 :=
  ofSigned (x.toWord * y.toWord)

/-- The length of a vector, one coordinate after the other. An infinite coordinate
decides, then one that is not a number. -/
def length (coordinates : List Binary64) : Binary64 :=
  if coordinates.any isInfinite then .infinite false
  else if coordinates.any isNaN then .nan
  else coordinates.foldl hypotenuse (zero false)

/-- The last number of a list that was better than the best one before it, from a
first best on; not a number when one of the list is not. -/
def extremum (better : Binary64 → Binary64 → Bool) : Binary64 → List Binary64 → Binary64
  | best, [] => best
  | best, x :: xs =>
    if x.isNaN then .nan else extremum better (if better x best then x else best) xs

/-- Above, or a zero in place of the negative zero. -/
def exceeds (x best : Binary64) : Bool :=
  best.lt x || (x.isZero && best.isZero && best.isNegative)

/-- Below, or the negative zero in place of a zero. -/
def undercuts (x best : Binary64) : Bool :=
  x.lt best || (x.isZero && best.isZero && x.isNegative)

/-- The greatest number of a list, positive zero above negative zero. -/
def maximum : List Binary64 → Binary64 :=
  extremum exceeds (.infinite true)

/-- The least number of a list, negative zero below positive zero. -/
def minimum : List Binary64 → Binary64 :=
  extremum undercuts (.infinite false)

end Binary64

open Binary64 in
/-- The value of a function. -/
def MathFunction.apply (function : MathFunction) (arguments : List Binary64) : Sampled Binary64 :=
  let x := arguments[0]?.getD .nan
  let y := arguments[1]?.getD .nan
  match function with
  | random => draw
  | abs => pure x.abs
  | acos => pure x.acos
  | acosh => pure x.acosh
  | asin => pure x.asin
  | asinh => pure x.asinh
  | atan => pure x.atan
  | atanh => pure x.atanh
  | cbrt => pure x.cbrt
  | ceil => pure x.ceil
  | clz32 => pure x.leadingZeros
  | cos => pure x.cos
  | cosh => pure x.cosh
  | exp => pure x.exp
  | expm1 => pure x.expm1
  | floor => pure x.floor
  | fround => pure x.toSingle
  | log => pure x.log
  | log1p => pure x.log1p
  | log10 => pure x.log10
  | log2 => pure x.log2
  | round => pure x.round
  | sign => pure x.sign
  | sin => pure x.sin
  | sinh => pure x.sinh
  | sqrt => pure x.sqrt
  | tan => pure x.tan
  | tanh => pure x.tanh
  | trunc => pure x.trunc
  | atan2 => pure (x.atan2 y)
  | imul => pure (x.wordProduct y)
  | pow => pure (x.pow y)
  | hypot => pure (Binary64.length arguments)
  | max => pure (maximum arguments)
  | min => pure (minimum arguments)

/-- Every function but `random` is a function of its arguments alone. -/
theorem MathFunction.apply_eq_pure {function : MathFunction} (ne : function ≠ .random)
    (arguments : List Binary64) : ∃ value, function.apply arguments = pure value := by
  cases function with
  | random => exact absurd rfl ne
  | _ => exact ⟨_, rfl⟩

end SelectionFormula
