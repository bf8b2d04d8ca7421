import SelectionFormula.Proofs.Binary64.SignedZero
import SelectionFormula.Proofs.Value.Eager

/-!
Two evaluations of one tree.

When two bindings give every name alike numbers, evaluation of a tree that does not draw goes
the same way under both and ends in alike values (`Expr.evaluate_alike`): alike numbers, or
arrays of the same trees. That holds as long as no node on the way tells zeros apart
(`Expr.TellsZeros`). Which nodes are on the way is what `Expr.Visits` says: a branch that is not
taken and an element that is not selected are not. Rendering evaluates the elements of an array
too (`Expr.RenderVisits`); it gives one text (`Expr.render_alike`).
-/

namespace SelectionFormula

open Binary64

/-! ### Operators and functions -/

theorem UnaryOperator.value?_alike (op : UnaryOperator) {x? y? : Option Binary64}
    (alike : Option.Rel Alike x? y?) : Option.Rel Alike (x?.bind op.value?) (y?.bind op.value?) := by
  cases alike with
  | none => exact .none
  | some alike =>
    cases op with
    | negate => exact .some alike.neg
    | complement => exact .some (.of_eq (congrArg (fun w : Word => ofSigned (~~~w)) alike.toWord_eq))
    | not => exact .none

/-- An operator takes alike numbers to alike ones, except where it tells zeros apart. -/
theorem BinaryOperator.value_alike (op : BinaryOperator) {x x' y y' : Binary64}
    (left : x.Alike x') (right : y.Alike y')
    (quotient : op = .divide → y.ZerosDiffer y' → x.isTruthy = false)
    (power : op = .power → x.ZerosDiffer x' → y.isNegativeOdd = false) :
    (op.value x y).Alike (op.value x' y') := by
  cases op with
  | plus => exact left.add right
  | minus => exact left.sub right
  | times => exact left.mul right
  | divide => exact left.div right (quotient rfl)
  | power => exact left.pow right (power rfl)
  | remainder => exact left.rem right
  | or => exact .ite left.isTruthy_eq left right
  | and => exact .ite left.isTruthy_eq right left
  | equal => exact .of_eq (congrArg ofBool (left.sameNumber_eq right))
  | atMost => exact .of_eq (congrArg ofBool (left.le_eq right))
  | atLeast => exact .of_eq (congrArg ofBool (right.le_eq left))
  | below => exact .of_eq (congrArg ofBool (left.lt_eq right))
  | above => exact .of_eq (congrArg ofBool (right.lt_eq left))
  | _ => exact .of_eq (by rw [value, value, left.toWord_eq, right.toWord_eq])

/-- A function takes alike numbers to alike ones, except where it tells zeros apart. -/
theorem MathFunction.value_alike (function : MathFunction) {xs ys : List Binary64}
    (alike : List.Forall₂ Alike xs ys)
    (power : function = .pow → ZerosDiffer (xs[0]?.getD .nan) (ys[0]?.getD .nan) →
      isNegativeOdd (xs[1]?.getD .nan) = false)
    (ordinate : function = .atan2 → ZerosDiffer (xs[0]?.getD .nan) (ys[0]?.getD .nan) →
      isNegative (xs[1]?.getD .nan) = false)
    (abscissa : function = .atan2 → ZerosDiffer (xs[1]?.getD .nan) (ys[1]?.getD .nan) →
      isZero (xs[0]?.getD .nan) = false) :
    (function.value xs).Alike (function.value ys) := by
  have argument : ∀ k : Nat, Alike (xs[k]?.getD .nan) (ys[k]?.getD .nan) := by
    intro k
    rcases getElem?_of_forall₂ alike k with ⟨left, right⟩ | ⟨x, y, left, right, here⟩ <;>
      rw [left, right]
    · exact .refl _
    · exact here
  have x := argument 0
  have y := argument 1
  cases function with
  | random => exact .refl _
  | abs => exact x.map_const Binary64.abs (zero false) fun _ => rfl
  | acos => exact x.acos
  | acosh => exact x.acosh
  | asin => exact x.map_kept Binary64.asin fun _ => rfl
  | asinh => exact x.map_kept Binary64.asinh fun _ => rfl
  | atan => exact x.map_kept Binary64.atan fun _ => rfl
  | atanh => exact x.map_kept Binary64.atanh fun _ => rfl
  | cbrt => exact x.map_kept Binary64.cbrt fun _ => rfl
  | ceil => exact x.integral Rat.ceil
  | clz32 => exact .of_eq x.leadingZeros_eq
  | cos => exact x.map_const Binary64.cos one fun _ => rfl
  | cosh => exact x.cosh
  | exp => exact x.exp
  | expm1 => exact x.expm1
  | floor => exact x.integral Rat.floor
  | fround => exact x.map_kept Binary64.toSingle fun _ => rfl
  | log => exact x.map_const Binary64.log (infinite true) fun _ => rfl
  | log1p => exact x.map_kept Binary64.log1p fun _ => rfl
  | log10 => exact x.map_const Binary64.log10 (infinite true) fun _ => rfl
  | log2 => exact x.map_const Binary64.log2 (infinite true) fun _ => rfl
  | round => exact x.round
  | sign => exact x.map_kept Binary64.sign fun _ => rfl
  | sin => exact x.map_kept Binary64.sin fun _ => rfl
  | sinh => exact x.map_kept Binary64.sinh fun _ => rfl
  | sqrt => exact x.map_kept Binary64.sqrt fun _ => rfl
  | tan => exact x.map_kept Binary64.tan fun _ => rfl
  | tanh => exact x.map_kept Binary64.tanh fun _ => rfl
  | trunc => exact x.integral truncate
  | atan2 => exact x.atan2 y (ordinate rfl) (abscissa rfl)
  | imul => exact .of_eq (x.wordProduct_eq y)
  | pow => exact x.pow y (power rfl)
  | hypot => exact alike_length alike
  | max => exact alike_maximum alike
  | min => exact alike_minimum alike

/-! ### Plain values -/

/-- Equal but for the signs of zeros. -/
inductive Plain.Alike : Plain → Plain → Prop
  | number {x y : Binary64} : x.Alike y → Alike (.number x) (.number y)
  | list {xs ys : List Plain} : List.Forall₂ Alike xs ys → Alike (.list xs) (.list ys)
  | empty : Alike .empty .empty

namespace Plain

mutual

theorem chars_eq_of_alike : ∀ (p : Plain) {q : Plain}, p.Alike q → p.chars = q.chars
  | .number _, _, .number alike => alike.chars_eq
  | .list elements, _, .list alike => joined_eq_of_alike elements alike
  | .empty, _, .empty => rfl

theorem joined_eq_of_alike :
    ∀ (ps : List Plain) {qs : List Plain}, List.Forall₂ Alike ps qs → joined ps = joined qs
  | [], _, .nil => rfl
  | p :: ps, _, .cons here others =>
    congrArg₂ (· ++ ·) (chars_eq_of_alike p here) (further_eq_of_alike ps others)

theorem further_eq_of_alike :
    ∀ (ps : List Plain) {qs : List Plain}, List.Forall₂ Alike ps qs → further ps = further qs
  | [], _, .nil => rfl
  | p :: ps, _, .cons here others =>
    congrArg₂ (fun front back => ',' :: front ++ back) (chars_eq_of_alike p here)
      (further_eq_of_alike ps others)

end

variable {p q : Plain}

theorem Alike.text_eq (alike : p.Alike q) : p.text = q.text :=
  congrArg String.ofList (chars_eq_of_alike p alike)

end Plain

/-! ### Values -/

theorem eq_of_pure_eq {α : Type} {x y : α} (same : (pure x : Sampled α) = pure y) : x = y :=
  congrArg (fun sampled => (sampled ⟨fun _ => .nan, 0⟩).1) same

/-- Alike numbers select one place. -/
theorem selectedPlace?_eq_of_alike (length : Nat) {x y : Binary64} (alike : x.Alike y) :
    selectedPlace? length x = selectedPlace? length y := by
  have part : x.integerPart? = y.integerPart? := by
    cases alike with
    | refl => rfl
    | zero s t => simp [zero, integerPart?, signedRat_zero]
  rw [selectedPlace?, selectedPlace?, part]

theorem LazyArray.elementAt?_eq_of_alike (elements : List Expr) (a b : Bindings) {x y : Binary64}
    (alike : x.Alike y) : (⟨elements, a⟩ : LazyArray).elementAt? x =
      (⟨elements, b⟩ : LazyArray).elementAt? y := by
  rw [elementAt?, elementAt?, place?_eq, place?_eq, selectedPlace?_eq_of_alike _ alike]
  rfl

/-- Alike numbers, or arrays of the same trees, which do not draw, each under its own bindings. -/
inductive Value.Alike (a b : Bindings) : Value → Value → Prop
  | number {x y : Binary64} : x.Alike y → Alike a b (.number x) (.number y)
  | array {elements : List Expr} : Expr.anyCallsRandom elements = false →
      Alike a b (.array ⟨elements, a⟩) (.array ⟨elements, b⟩)
  | empty : Alike a b .empty .empty

namespace Value

variable {a b : Bindings} {v w : Value}

theorem Alike.number?_alike (alike : v.Alike a b w) :
    Option.Rel Binary64.Alike v.number? w.number? := by
  cases alike with
  | number alike => exact .some alike
  | _ => exact .none

theorem alike_ofNumber? {x? y? : Option Binary64} (alike : Option.Rel Binary64.Alike x? y?) :
    Alike a b (ofNumber? x?) (ofNumber? y?) := by
  cases alike with
  | some alike => exact .number alike
  | none => exact .empty

end Value

namespace Expr

/-! ### What evaluation visits -/

/-- A zero under some bindings and the zero of the other sign under other ones. -/
def ZerosDiffer (a b : Bindings) (e : Expr) : Prop :=
  ∃ s, e.evaluate a = pure (.number (zero s)) ∧ e.evaluate b = pure (.number (zero !s))

/-- A number that passes a test. -/
def Gives (bindings : Bindings) (test : Binary64 → Bool) (e : Expr) : Prop :=
  ∃ x, e.evaluate bindings = pure (.number x) ∧ test x = true

/-- A node that tells zeros of different signs apart: as the divisor of a number that is neither
zero nor not-a-number, as the base of a power to a negative odd integer, as the ordinate of a
point to the left, or as the abscissa of a point with ordinate zero. -/
inductive TellsZeros (a b : Bindings) : Expr → Prop
  | quotient {left right : Expr} :
      right.ZerosDiffer a b → left.Gives a isTruthy → TellsZeros a b (.binary .divide left right)
  | power {base exponent : Expr} :
      base.ZerosDiffer a b → exponent.Gives a isNegativeOdd →
      TellsZeros a b (.binary .power base exponent)
  | powerCall {arguments : List Expr} {base exponent : Expr} :
      arguments[0]? = some base → arguments[1]? = some exponent →
      base.ZerosDiffer a b → exponent.Gives a isNegativeOdd →
      TellsZeros a b (.call .pow arguments)
  | ordinate {arguments : List Expr} {y x : Expr} :
      arguments[0]? = some y → arguments[1]? = some x →
      y.ZerosDiffer a b → x.Gives a isNegative → TellsZeros a b (.call .atan2 arguments)
  | abscissa {arguments : List Expr} {y x : Expr} :
      arguments[0]? = some y → arguments[1]? = some x →
      x.ZerosDiffer a b → y.Gives a isZero → TellsZeros a b (.call .atan2 arguments)

mutual

/-- Evaluation of a tree evaluates a node of a kind. -/
inductive Visits (bindings : Bindings) (kind : Expr → Prop) : Expr → Prop
  | here {e : Expr} : kind e → Visits bindings kind e
  | operand {op : UnaryOperator} {operand : Expr} :
      Visits bindings kind operand → Visits bindings kind (.unary op operand)
  | left {op : BinaryOperator} {left right : Expr} :
      Visits bindings kind left → Visits bindings kind (.binary op left right)
  | right {op : BinaryOperator} {left right : Expr} :
      Visits bindings kind right → Visits bindings kind (.binary op left right)
  | condition {condition yes no : Expr} :
      Visits bindings kind condition → Visits bindings kind (.conditional condition yes no)
  | yes {condition yes no : Expr} :
      condition.Gives bindings isTruthy → Visits bindings kind yes →
      Visits bindings kind (.conditional condition yes no)
  | no {condition yes no : Expr} :
      condition.Gives bindings (!isTruthy ·) → Visits bindings kind no →
      Visits bindings kind (.conditional condition yes no)
  | items {items position : Expr} :
      Visits bindings kind items → Visits bindings kind (.index items position)
  | position {items position : Expr} :
      Visits bindings kind position → Visits bindings kind (.index items position)
  | selected {items position element : Expr} {array : LazyArray} {n : Binary64} :
      items.evaluate bindings = pure (.array array) →
      position.evaluate bindings = pure (.number n) → array.elementAt? n = some element →
      Visits bindings kind element → Visits bindings kind (.index items position)
  | arguments {function : MathFunction} {arguments : List Expr} :
      VisitsAny bindings kind arguments → Visits bindings kind (.call function arguments)

/-- Evaluation of arguments, up to the first that is not a number, evaluates a node of a kind. -/
inductive VisitsAny (bindings : Bindings) (kind : Expr → Prop) : List Expr → Prop
  | first {e : Expr} {es : List Expr} :
      Visits bindings kind e → VisitsAny bindings kind (e :: es)
  | further {e : Expr} {es : List Expr} {x : Binary64} :
      e.evaluate bindings = pure (.number x) → VisitsAny bindings kind es →
      VisitsAny bindings kind (e :: es)

end

/-- Evaluation and rendering of a tree evaluate a node of a kind. -/
inductive RenderVisits (bindings : Bindings) (kind : Expr → Prop) : Expr → Prop
  | evaluated {e : Expr} : Visits bindings kind e → RenderVisits bindings kind e
  | element {e element : Expr} {array : LazyArray} :
      e.evaluate bindings = pure (.array array) → element ∈ array.elements →
      RenderVisits bindings kind element → RenderVisits bindings kind e

/-! ### Two runs -/

variable {a b bindings : Bindings}

/-- What is evaluated holds on to less than the tree. -/
theorem held_lt_of_evaluate {e : Expr} {value : Value} (evaluated : e.evaluate bindings = pure value) :
    value.held < sizeOf e := by
  have ran := congrArg (fun sampled => (sampled ⟨fun _ => .nan, 0⟩).1) evaluated
  have bound := (e.evaluateHeld bindings ⟨fun _ => .nan, 0⟩).1.property
  have same : (e.evaluateHeld bindings ⟨fun _ => .nan, 0⟩).1.val = value := ran
  rwa [same] at bound

section Calls

variable {arguments : List Expr} {xs ys : List Binary64}
  (left : List.Forall₂ (fun e x => e.evaluate a = pure (.number x)) arguments xs)
  (right : List.Forall₂ (fun e y => e.evaluate b = pure (.number y)) arguments ys) {k : Nat}

include left

theorem argument_of_value {x : Binary64} (at_x : xs[k]? = some x) :
    ∃ e, arguments[k]? = some e ∧ e.evaluate a = pure (.number x) := by
  rcases getElem?_of_forall₂ left k with ⟨-, none⟩ | ⟨e, y, at_e, at_y, evaluated⟩
  · cases at_x.symm.trans none
  · cases at_x.symm.trans at_y
    exact ⟨e, at_e, evaluated⟩

theorem gives_of_value {test : Binary64 → Bool} (fails : test .nan = false)
    (passes : test (xs[k]?.getD .nan) = true) :
    ∃ e, arguments[k]? = some e ∧ e.Gives a test := by
  cases at_x : xs[k]? with
  | none =>
    rw [at_x, Option.getD_none, fails] at passes
    cases passes
  | some x =>
    rw [at_x] at passes
    obtain ⟨e, at_e, evaluated⟩ := argument_of_value left at_x
    exact ⟨e, at_e, x, evaluated, passes⟩

include right

theorem zerosDiffer_of_values (differ : Binary64.ZerosDiffer (xs[k]?.getD .nan) (ys[k]?.getD .nan)) :
    ∃ e, arguments[k]? = some e ∧ e.ZerosDiffer a b := by
  obtain ⟨s, zero_a, zero_b⟩ := differ
  have given : ∀ {zs : List Binary64} {t : Bool}, zs[k]?.getD .nan = zero t → zs[k]? = some (zero t) := by
    intro zs t value
    cases at_z : zs[k]? with
    | none => rw [at_z] at value; cases value
    | some z => rw [at_z] at value; exact congrArg some value
  obtain ⟨e, at_e, evaluated⟩ := argument_of_value left (given zero_a)
  obtain ⟨e', at_e', evaluated'⟩ := argument_of_value right (given zero_b)
  cases at_e.symm.trans at_e'
  exact ⟨e, at_e, s, evaluated, evaluated'⟩

/-- A call that tells no zeros apart has alike values when its arguments have. -/
theorem call_alike {function : MathFunction} (kept : ¬ (call function arguments).TellsZeros a b)
    (values : List.Forall₂ Binary64.Alike xs ys) : (function.value xs).Alike (function.value ys) := by
  refine function.value_alike values ?_ ?_ ?_
  · rintro rfl differ
    obtain ⟨base, first, differ⟩ := zerosDiffer_of_values left right differ
    refine Bool.eq_false_iff.mpr fun odd => ?_
    obtain ⟨exponent, second, odd⟩ := gives_of_value left rfl odd
    exact kept (.powerCall first second differ odd)
  · rintro rfl differ
    obtain ⟨y, first, differ⟩ := zerosDiffer_of_values left right differ
    refine Bool.eq_false_iff.mpr fun negative => ?_
    obtain ⟨x, second, negative⟩ := gives_of_value left rfl negative
    exact kept (.ordinate first second differ negative)
  · rintro rfl differ
    obtain ⟨x, second, differ⟩ := zerosDiffer_of_values left right differ
    refine Bool.eq_false_iff.mpr fun zero => ?_
    obtain ⟨y, first, zero⟩ := gives_of_value left rfl zero
    exact kept (.abscissa first second differ zero)

end Calls

/-- An operator that tells no zeros apart has alike values when its operands have. -/
theorem binary_alike {op : BinaryOperator} {left right : Expr} {v v' w w' : Value}
    (kept : ¬ (binary op left right).TellsZeros a b)
    (left_a : left.evaluate a = pure v) (left_b : left.evaluate b = pure v')
    (right_a : right.evaluate a = pure w) (right_b : right.evaluate b = pure w')
    (first : v.Alike a b v') (second : w.Alike a b w') :
    Option.Rel Binary64.Alike (do return op.value (← v.number?) (← w.number?))
      (do return op.value (← v'.number?) (← w'.number?)) := by
  cases first with
  | array => exact .none
  | empty => exact .none
  | @number x x' x_alike =>
  cases second with
  | array => exact .none
  | empty => exact .none
  | @number y y' y_alike =>
  refine .some (op.value_alike x_alike y_alike ?_ ?_)
  · rintro rfl ⟨s, rfl, rfl⟩
    exact Bool.eq_false_iff.mpr fun truthy => kept (.quotient ⟨s, right_a, right_b⟩ ⟨x, left_a, truthy⟩)
  · rintro rfl ⟨s, rfl, rfl⟩
    exact Bool.eq_false_iff.mpr fun odd => kept (.power ⟨s, left_a, left_b⟩ ⟨y, right_a, odd⟩)

mutual

theorem evaluate_alike (bound : ∀ name, Option.Rel Binary64.Alike (a.get? name) (b.get? name)) :
    ∀ e : Expr, e.callsRandom = false → ¬ e.Visits a (TellsZeros a b) →
    ∃ v w, e.evaluate a = pure v ∧ e.evaluate b = pure w ∧ v.Alike a b w
  | .constant value, _, _ =>
    ⟨_, _, evaluate_constant a value, evaluate_constant b value, .number (.refl value)⟩
  | .argument name, _, _ =>
    ⟨_, _, evaluate_argument a name, evaluate_argument b name, Value.alike_ofNumber? (bound name)⟩
  | .unary op operand, calm, kept => by
    obtain ⟨v, w, left, right, alike⟩ := evaluate_alike bound operand calm fun visited =>
      kept (.operand visited)
    refine ⟨_, _, ?_, ?_, Value.alike_ofNumber? (op.value?_alike alike.number?_alike)⟩
    · rw [evaluate_unary, left, pure_bind]
    · rw [evaluate_unary, right, pure_bind]
  | .binary op left right, calm, kept => by
    obtain ⟨left_calm, right_calm⟩ := Bool.or_eq_false_iff.mp calm
    obtain ⟨v, v', left_a, left_b, first⟩ := evaluate_alike bound left left_calm fun visited =>
      kept (.left visited)
    obtain ⟨w, w', right_a, right_b, second⟩ := evaluate_alike bound right right_calm fun visited =>
      kept (.right visited)
    have alike := binary_alike (fun told => kept (.here told)) left_a left_b right_a right_b first second
    refine ⟨_, _, ?_, ?_, Value.alike_ofNumber? alike⟩
    · rw [evaluate_binary, left_a, pure_bind, right_a, pure_bind]
    · rw [evaluate_binary, left_b, pure_bind, right_b, pure_bind]
  | .conditional condition yes no, calm, kept => by
    obtain ⟨calm, no_calm⟩ := Bool.or_eq_false_iff.mp calm
    obtain ⟨condition_calm, yes_calm⟩ := Bool.or_eq_false_iff.mp calm
    obtain ⟨v, w, left, right, alike⟩ := evaluate_alike bound condition condition_calm fun visited =>
      kept (.condition visited)
    rw [evaluate_conditional, evaluate_conditional, left, right, pure_bind, pure_bind]
    cases alike with
    | array => exact ⟨.empty, .empty, rfl, rfl, .empty⟩
    | empty => exact ⟨.empty, .empty, rfl, rfl, .empty⟩
    | @number x y alike =>
      dsimp only [Value.number?]
      rw [← alike.isTruthy_eq]
      by_cases truthy : x.isTruthy = true
      · rw [if_pos truthy, if_pos truthy]
        exact evaluate_alike bound yes yes_calm fun visited => kept (.yes ⟨x, left, truthy⟩ visited)
      · rw [if_neg truthy, if_neg truthy]
        exact evaluate_alike bound no no_calm fun visited =>
          kept (.no ⟨x, left, by simpa using truthy⟩ visited)
  | .array elements, calm, _ =>
    ⟨_, _, evaluate_array a elements, evaluate_array b elements, .array calm⟩
  | .index items position, calm, kept => by
    obtain ⟨items_calm, position_calm⟩ := Bool.or_eq_false_iff.mp calm
    obtain ⟨v, w, left, right, source⟩ := evaluate_alike bound items items_calm fun visited =>
      kept (.items visited)
    obtain ⟨x, y, left', right', place⟩ := evaluate_alike bound position position_calm fun visited =>
      kept (.position visited)
    rw [evaluate_index, evaluate_index, left, right, pure_bind, pure_bind, left', right', pure_bind,
      pure_bind]
    cases source with
    | number => exact ⟨.empty, .empty, rfl, rfl, .empty⟩
    | empty => exact ⟨.empty, .empty, rfl, rfl, .empty⟩
    | @array elements elements_calm =>
      cases place with
      | array => exact ⟨.empty, .empty, rfl, rfl, .empty⟩
      | empty => exact ⟨.empty, .empty, rfl, rfl, .empty⟩
      | @number n n' alike =>
        dsimp only [Value.number?]
        rw [LazyArray.select, LazyArray.select, ← LazyArray.elementAt?_eq_of_alike elements a b alike]
        cases found : (⟨elements, a⟩ : LazyArray).elementAt? n with
        | none => exact ⟨.empty, .empty, rfl, rfl, .empty⟩
        | some element =>
          obtain ⟨element_calm, smaller⟩ :
              element.callsRandom = false ∧ sizeOf element < sizeOf items := by
            have mem := LazyArray.mem_of_elementAt? found
            rw [anyCallsRandom_eq_any, List.any_eq_false] at elements_calm
            exact ⟨Bool.eq_false_iff.mpr (elements_calm element mem),
              Nat.lt_trans (List.sizeOf_lt_of_mem mem) (held_lt_of_evaluate left)⟩
          exact evaluate_alike bound element element_calm
            fun visited => kept (.selected left left' found visited)
  | .call function arguments, calm, kept => by
    obtain ⟨other, calm⟩ := Bool.or_eq_false_iff.mp calm
    rw [evaluate_call, evaluate_call]
    rcases numbers_alike bound arguments calm fun visited => kept (.arguments visited) with
      ⟨left, right⟩ | ⟨xs, ys, left, right, values, from_a, from_b⟩
    · rw [left, right, pure_bind]
      exact ⟨.empty, .empty, rfl, rfl, .empty⟩
    · have ne : function ≠ .random := by simpa using other
      simp only [left, right, pure_bind, MathFunction.apply_eq_value ne]
      exact ⟨_, _, rfl, rfl, .number (call_alike from_a from_b (fun told => kept (.here told)) values)⟩
termination_by e => sizeOf e

theorem numbers_alike (bound : ∀ name, Option.Rel Binary64.Alike (a.get? name) (b.get? name)) :
    ∀ es : List Expr, anyCallsRandom es = false → ¬ VisitsAny a (TellsZeros a b) es →
    (evaluateNumbers es a = pure none ∧ evaluateNumbers es b = pure none) ∨
    ∃ xs ys, evaluateNumbers es a = pure (some xs) ∧ evaluateNumbers es b = pure (some ys) ∧
      List.Forall₂ Binary64.Alike xs ys ∧
      List.Forall₂ (fun e x => e.evaluate a = pure (.number x)) es xs ∧
      List.Forall₂ (fun e y => e.evaluate b = pure (.number y)) es ys
  | [], _, _ =>
    .inr ⟨[], [], evaluateNumbers_nil a, evaluateNumbers_nil b, .nil, .nil, .nil⟩
  | e :: es, calm, kept => by
    obtain ⟨first_calm, others_calm⟩ := Bool.or_eq_false_iff.mp calm
    obtain ⟨v, w, left, right, alike⟩ := evaluate_alike bound e first_calm fun visited =>
      kept (.first visited)
    rw [evaluateNumbers_cons, evaluateNumbers_cons, left, right, pure_bind, pure_bind]
    cases alike with
    | array => exact .inl ⟨rfl, rfl⟩
    | empty => exact .inl ⟨rfl, rfl⟩
    | @number x y alike =>
      dsimp only [Value.number?]
      rcases numbers_alike bound es others_calm fun visited => kept (.further left visited) with
        ⟨left', right'⟩ | ⟨xs, ys, left', right', values, from_a, from_b⟩
      · rw [left', right']
        exact .inl ⟨rfl, rfl⟩
      · rw [left', right']
        exact .inr ⟨x :: xs, y :: ys, rfl, rfl, .cons alike values, .cons left from_a,
          .cons right from_b⟩
termination_by es => sizeOf es

end

/-- Both values of a tree are forced to plain values, and these are alike. -/
def ForcesAlike (a b : Bindings) (e : Expr) : Prop :=
  ∃ v w p q, e.evaluate a = pure v ∧ e.evaluate b = pure w ∧
    v.force = pure p ∧ w.force = pure q ∧ p.Alike q

theorem forceAll_alike {es : List Expr} (all : ∀ e ∈ es, e.ForcesAlike a b) :
    ∃ ps qs, forceAll es a = pure ps ∧ forceAll es b = pure qs ∧ List.Forall₂ Plain.Alike ps qs := by
  induction es with
  | nil => exact ⟨[], [], forceAll_nil a, forceAll_nil b, .nil⟩
  | cons e es ih =>
    obtain ⟨here, others⟩ := List.forall_mem_cons.mp all
    obtain ⟨v, w, p, q, left, right, forced, forced', alike⟩ := here
    obtain ⟨ps, qs, left', right', alikes⟩ := ih others
    refine ⟨p :: ps, q :: qs, ?_, ?_, .cons alike alikes⟩
    · rw [forceAll_cons, left, pure_bind, forced, pure_bind, left', pure_bind]
    · rw [forceAll_cons, right, pure_bind, forced', pure_bind, right', pure_bind]

theorem forcesAlike_of_bound (bound : ∀ name, Option.Rel Binary64.Alike (a.get? name) (b.get? name))
    {e : Expr} (calm : e.callsRandom = false) (kept : ¬ e.RenderVisits a (TellsZeros a b)) :
    e.ForcesAlike a b := by
  induction size : sizeOf e using Nat.strong_induction_on generalizing e with
  | _ n ih =>
    obtain ⟨v, w, left, right, alike⟩ := evaluate_alike bound e calm fun visited =>
      kept (.evaluated visited)
    cases alike with
    | @number x y alike =>
      exact ⟨_, _, _, _, left, right, Value.force_number x, Value.force_number y, .number alike⟩
    | empty => exact ⟨_, _, _, _, left, right, Value.force_empty, Value.force_empty, .empty⟩
    | @array elements elements_calm =>
      rw [anyCallsRandom_eq_any, List.any_eq_false] at elements_calm
      -- The elements are smaller than the tree that the array came from.
      obtain ⟨ps, qs, forced, forced', alikes⟩ := forceAll_alike fun element mem =>
        ih (sizeOf element)
          (size ▸ Nat.lt_trans (List.sizeOf_lt_of_mem mem) (held_lt_of_evaluate left))
          (Bool.eq_false_iff.mpr (elements_calm element mem))
          (fun visited => kept (.element left mem visited)) rfl
      refine ⟨_, _, .list ps, .list qs, left, right, ?_, ?_, .list alikes⟩
      · rw [Value.force_array, forced]
        rfl
      · rw [Value.force_array, forced']
        rfl

/-- Both evaluations of a tree render one text, if neither draws and no node on the way tells
zeros apart. -/
theorem render_alike (bound : ∀ name, Option.Rel Binary64.Alike (a.get? name) (b.get? name))
    {e : Expr} (calm : e.callsRandom = false) (kept : ¬ e.RenderVisits a (TellsZeros a b)) :
    ∃ text, (do (← e.evaluate a).render) = (pure text : Sampled String) ∧
      (do (← e.evaluate b).render) = (pure text : Sampled String) := by
  obtain ⟨v, w, p, q, left, right, forced, forced', alike⟩ := forcesAlike_of_bound bound calm kept
  refine ⟨p.text, ?_, ?_⟩
  · rw [left, pure_bind, Value.render, forced, pure_bind]
  · rw [right, pure_bind, Value.render, forced', pure_bind, alike.text_eq]

end Expr

end SelectionFormula
