import SelectionFormula.Value.Basic
import SelectionFormula.Value.Call

/-!
Evaluation of expressions.

Evaluation never fails: what has no value evaluates to nothing, and so does every
operation that needs a number or an array there. Both operands of a binary
operator are evaluated, left before right; of a conditional only the branch
that the condition takes; of a call the arguments up to the first that is not a
number.

An array holds less than the tree it came from (`Held`), so evaluating one of its
elements is evaluating something smaller. The equations `evaluate_binary` and so
on state evaluation without that bound.
-/

namespace SelectionFormula

namespace Expr

/-- A value that holds on to less than a tree. -/
abbrev Held (e : Expr) :=
  { value : Value // value.held < sizeOf e }

theorem sizeOf_pos (e : Expr) : 0 < sizeOf e := by
  cases e <;>
    simp only [constant.sizeOf_spec, argument.sizeOf_spec, unary.sizeOf_spec, binary.sizeOf_spec,
      conditional.sizeOf_spec, array.sizeOf_spec, index.sizeOf_spec, call.sizeOf_spec] <;>
    omega

/-- Nothing, as a value of any tree. -/
def Held.empty (e : Expr) : Held e :=
  ⟨.empty, e.sizeOf_pos⟩

/-- A number or nothing, as a value of any tree. -/
def Held.ofNumber? (e : Expr) (value? : Option Binary64) : Held e :=
  ⟨.ofNumber? value?, by simpa using e.sizeOf_pos⟩

/-- A smaller tree's value, as a value of a tree. -/
def Held.lift {e e' : Expr} (le : sizeOf e ≤ sizeOf e') (value : Held e) : Held e' :=
  ⟨value.val, Nat.lt_of_lt_of_le value.property le⟩

mutual

/-- The value of a tree, with what bounds it. -/
def evaluateHeld : (e : Expr) → Bindings → Sampled (Held e)
  | constant value, _ => pure (.ofNumber? _ (some value))
  | argument name, bindings => pure (.ofNumber? _ (bindings.get? name))
  | unary op operand, bindings => do
    let value ← evaluateHeld operand bindings
    return .ofNumber? _ (value.val.number?.bind op.value?)
  | binary op left right, bindings => do
    let x ← evaluateHeld left bindings
    let y ← evaluateHeld right bindings
    return .ofNumber? _ (do return op.value (← x.val.number?) (← y.val.number?))
  | conditional condition yes no, bindings => do
    let flag ← evaluateHeld condition bindings
    match flag.val.number? with
    | none => return .empty _
    | some x =>
      if x.isTruthy then return (← evaluateHeld yes bindings).lift (by rw [conditional.sizeOf_spec]; omega)
      else return (← evaluateHeld no bindings).lift (by rw [conditional.sizeOf_spec]; omega)
  | array elements, bindings => pure ⟨.array ⟨elements, bindings⟩, by simp [Value.held]⟩
  | index items position, bindings => do
    let source ← evaluateHeld items bindings
    let place ← evaluateHeld position bindings
    match source, place.val.number? with
    | ⟨.array lazy, smaller⟩, some n =>
      match found : lazy.elementAt? n with
      | none => return .empty _
      | some element =>
        have : sizeOf element < sizeOf items :=
          Nat.lt_trans (List.sizeOf_lt_of_mem (LazyArray.mem_of_elementAt? found)) smaller
        return (← evaluateHeld element lazy.bindings).lift (by rw [index.sizeOf_spec]; omega)
    | _, _ => return .empty _
  | call function arguments, bindings => do
    match ← evaluateNumbers arguments bindings with
    | none => return .empty _
    | some values => return .ofNumber? _ (some (← function.apply values))
termination_by e => sizeOf e

/-- The values of trees that are all numbers, up to the first that is none. -/
def evaluateNumbers : (es : List Expr) → Bindings → Sampled (Option (List Binary64))
  | [], _ => pure (some [])
  | e :: es, bindings => do
    let value ← evaluateHeld e bindings
    match value.val.number? with
    | none => return none
    | some x => return (← evaluateNumbers es bindings).map (x :: ·)
termination_by es => sizeOf es

end

/-- The value of a tree. -/
def evaluate (e : Expr) (bindings : Bindings) : Sampled Value :=
  return (← evaluateHeld e bindings).val

end Expr

namespace LazyArray

/-- The element at a place, evaluated now. -/
def get? (items : LazyArray) (place : Nat) : Sampled (Option Value) :=
  match items.elements[place]? with
  | none => pure none
  | some element => return some (← element.evaluate items.bindings)

/-- Every element, evaluated one after the other. -/
def each (items : LazyArray) : Sampled (List Value) :=
  items.elements.mapM (·.evaluate items.bindings)

/-- The element at the place that a number selects, evaluated now, or nothing. -/
def select (items : LazyArray) (position : Binary64) : Sampled Value :=
  match items.elementAt? position with
  | none => pure .empty
  | some element => element.evaluate items.bindings

end LazyArray

namespace Expr

/-! ### Evaluation, equation by equation -/

variable (bindings : Bindings)

theorem evaluate_constant (value : Binary64) :
    (constant value).evaluate bindings = pure (.number value) := by
  simp [evaluate, evaluateHeld, Held.ofNumber?, Value.ofNumber?]

theorem evaluate_argument (name : String) :
    (argument name).evaluate bindings = pure (.ofNumber? (bindings.get? name)) := by
  simp [evaluate, evaluateHeld, Held.ofNumber?]

theorem evaluate_unary (op : UnaryOperator) (operand : Expr) :
    (unary op operand).evaluate bindings = do
      let value ← operand.evaluate bindings
      return .ofNumber? (value.number?.bind op.value?) := by
  simp [evaluate, evaluateHeld, Held.ofNumber?]

theorem evaluate_binary (op : BinaryOperator) (left right : Expr) :
    (binary op left right).evaluate bindings = do
      let x ← left.evaluate bindings
      let y ← right.evaluate bindings
      return .ofNumber? (do return op.value (← x.number?) (← y.number?)) := by
  simp [evaluate, evaluateHeld, Held.ofNumber?]

theorem evaluate_conditional (condition yes no : Expr) :
    (conditional condition yes no).evaluate bindings = (do
      match (← condition.evaluate bindings).number? with
      | none => return .empty
      | some x => (if x.isTruthy then yes.evaluate bindings else no.evaluate bindings)) := by
  simp only [evaluate, evaluateHeld, bind_assoc, pure_bind]
  congr 1
  funext flag
  cases flag.val.number? with
  | none => simp [Held.empty]
  | some x => by_cases h : x.isTruthy = true <;> simp [h, Held.lift]

theorem evaluate_array (elements : List Expr) :
    (array elements).evaluate bindings = pure (.array ⟨elements, bindings⟩) := by
  simp [evaluate, evaluateHeld]

theorem evaluate_index (items position : Expr) :
    (index items position).evaluate bindings = do
      let source ← items.evaluate bindings
      let place ← position.evaluate bindings
      match source, place.number? with
      | .array lazy, some n => lazy.select n
      | _, _ => return .empty := by
  simp only [evaluate, evaluateHeld, bind_assoc, pure_bind]
  congr 1
  funext source
  congr 1
  funext place
  obtain ⟨source, smaller⟩ := source
  cases source with
  | array lazy =>
    cases place.val.number? with
    | none => simp [Held.empty]
    | some n =>
      simp only [LazyArray.select]
      split
      · next none_at => simp [none_at, Held.empty]
      · next element at_ => simp [at_, Held.lift, evaluate]
  | _ => simp [Held.empty]

theorem evaluate_call (function : MathFunction) (arguments : List Expr) :
    (call function arguments).evaluate bindings = do
      match ← evaluateNumbers arguments bindings with
      | none => return .empty
      | some values => return .number (← function.apply values) := by
  simp only [evaluate, evaluateHeld, bind_assoc]
  congr 1
  funext values?
  cases values? <;> simp [Held.empty, Held.ofNumber?, Value.ofNumber?]

theorem evaluateNumbers_nil : evaluateNumbers [] bindings = pure (some []) := by
  simp [evaluateNumbers]

theorem evaluateNumbers_cons (e : Expr) (es : List Expr) :
    evaluateNumbers (e :: es) bindings = do
      match (← e.evaluate bindings).number? with
      | none => return none
      | some x => return (← evaluateNumbers es bindings).map (x :: ·) := by
  simp [evaluate, evaluateNumbers]

end Expr

end SelectionFormula
