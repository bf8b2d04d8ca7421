import SelectionFormula.Value.Plain
import SelectionFormula.Proofs.Binary64.Exact

/-!
Evaluation without arrays that wait.

`Expr.eager` is the reference: it evaluates every element of an array at once and
gives plain values, so a position selects from a list. Evaluation of a tree that never draws
agrees with it (`evaluate_agrees`): its value is the reference's, and an array that still
holds trees answers every access as the list does (`LazyArray.Answers`), its elements agreeing
in turn (`Value.Agrees`).

A position selects by its integer part. It is compared with the number of elements as a
number; up to `2 ^ 53` elements that is the exact comparison (`selectedPlace?_eq_exactPlace?`).
-/

namespace SelectionFormula

/-! ### The reference -/

namespace Plain

def number? : Plain → Option Binary64
  | number value => some value
  | _ => none

/-- A number, or nothing. -/
def ofNumber? : Option Binary64 → Plain
  | some value => number value
  | none => empty

end Plain

/-- The integer part of a number, toward zero. Not-a-number counts as zero; the
infinite numbers have none. -/
def Binary64.integerPart? : Binary64 → Option Int
  | .nan => some 0
  | .infinite _ => none
  | .finite negative m q _ => some (truncate (signedRat negative m q))

/-- The place in a list of a length that a number selects. A place below zero or not below the
length, taken as a number, is none. -/
def selectedPlace? (length : Nat) (position : Binary64) : Option Nat :=
  position.integerPart?.bind fun i =>
    if i < 0 ∨ (Binary64.ofNat length).toRat?.any (· ≤ (i : Rat)) then none else some i.toNat

/-- The place that a number selects when the length is taken as it is. -/
def exactPlace? (length : Nat) (position : Binary64) : Option Nat :=
  position.integerPart?.bind fun i => if i < 0 ∨ (length : Int) ≤ i then none else some i.toNat

/-- The value of a function that does not draw. -/
def MathFunction.value (function : MathFunction) (arguments : List Binary64) : Binary64 :=
  (function.apply arguments ⟨fun _ => .nan, 0⟩).1

namespace Expr

mutual

/-- The plain value of a tree, the elements of arrays evaluated at once. -/
def eager : Expr → Bindings → Plain
  | constant value, _ => .number value
  | argument name, bindings => .ofNumber? (bindings.get? name)
  | unary op operand, bindings => .ofNumber? ((operand.eager bindings).number?.bind op.value?)
  | binary op left right, bindings =>
    .ofNumber? do return op.value (← (left.eager bindings).number?) (← (right.eager bindings).number?)
  | conditional condition yes no, bindings =>
    match (condition.eager bindings).number? with
    | none => .empty
    | some x => if x.isTruthy then yes.eager bindings else no.eager bindings
  | array elements, bindings => .list (eagerAll elements bindings)
  | index items position, bindings =>
    match items.eager bindings, (position.eager bindings).number? with
    | .list list, some n => ((selectedPlace? list.length n).bind (list[·]?)).getD .empty
    | _, _ => .empty
  | call function arguments, bindings =>
    match (eagerAll arguments bindings).mapM Plain.number? with
    | none => .empty
    | some values => .number (function.value values)

/-- The plain values of several trees. -/
def eagerAll : List Expr → Bindings → List Plain
  | [], _ => []
  | e :: es, bindings => e.eager bindings :: eagerAll es bindings

end

end Expr

/-! ### Positions -/

theorem selectedPlace?_eq_exactPlace? {length : Nat} (few : length ≤ 2 ^ 53) (position : Binary64) :
    selectedPlace? length position = exactPlace? length position := by
  unfold selectedPlace? exactPlace?
  congr 1
  funext i
  rw [Binary64.toRat?_ofNat few]
  have same : ((length : Rat) ≤ i) = ((length : Int) ≤ i) := by
    rw [← Int.cast_natCast, Int.cast_le]
  simp [same]

/-- A number that is an integer selects the place of that integer. -/
theorem place_of_integer (length : Nat) {index : Binary64} {i : Int}
    (value : index.toRat? = some (i : Rat)) :
    (if index.lt (Binary64.zero false) || (Binary64.ofNat length).le index then none
      else some index.toNat) =
    if i < 0 ∨ (Binary64.ofNat length).toRat?.any (· ≤ (i : Rat)) then none else some i.toNat := by
  have below : index.lt (Binary64.zero false) = decide (i < 0) := by
    rw [Binary64.lt_eq value (Binary64.toRat?_zero false)]
    simp
  have past : (Binary64.ofNat length).le index =
      (Binary64.ofNat length).toRat?.any (· ≤ (i : Rat)) := by
    rcases Binary64.ofNat_cases length with ⟨r, finite⟩ | infinite
    · rw [Binary64.le_eq finite value, finite]
      rfl
    · rw [infinite]
      cases index <;> first | rfl | cases value
  rw [below, past, Binary64.toNat_eq value]
  simp

/-- The position of an array is that of the list of its elements. -/
theorem LazyArray.place?_eq (items : LazyArray) (position : Binary64) :
    items.place? position = selectedPlace? items.length position := by
  unfold LazyArray.place? selectedPlace?
  cases position with
  | nan => exact place_of_integer items.length (Binary64.toRat?_zero false)
  | finite negative m q canonical =>
    exact place_of_integer items.length (Binary64.toRat?_trunc negative canonical)
  | infinite negative =>
    have past : (Binary64.ofNat items.length).le (.infinite false) = true := by
      rcases Binary64.ofNat_cases items.length with ⟨r, finite⟩ | infinite
      · cases length : Binary64.ofNat items.length <;> rw [length] at finite <;>
          first | rfl | cases finite
      · rw [infinite]
        rfl
    cases negative
    · exact if_pos (by simp [Binary64.isNaN, Binary64.trunc, Binary64.integral, past])
    · rfl

/-! ### Agreement -/

/-- An array answers every access as the list of its elements' values does, and is forced and
rendered to a list of plain values. -/
structure LazyArray.Answers (items : LazyArray) (values : List Value) (list : List Plain) :
    Prop where
  length : items.length = list.length
  isEmpty : items.isEmpty = list.isEmpty
  get? : ∀ place, items.get? place = pure values[place]?
  each : items.each = pure values
  select : ∀ position, items.select position =
    pure (((selectedPlace? list.length position).bind (values[·]?)).getD .empty)
  force : (Value.array items).force = pure (.list list)
  render : (Value.array items).render = pure (Plain.list list).text

/-- A value and its plain value. -/
inductive Value.Agrees : Value → Plain → Prop
  | number (value : Binary64) : Agrees (.number value) (.number value)
  | empty : Agrees .empty .empty
  | array {items : LazyArray} {values : List Value} {list : List Plain} :
      items.Answers values list → List.Forall₂ Agrees values list →
      Agrees (.array items) (.list list)

namespace Value

/-- A value that is nothing or a number, and its plain value. -/
theorem agrees_ofNumber? (value? : Option Binary64) :
    (ofNumber? value?).Agrees (.ofNumber? value?) := by
  cases value? with
  | none => exact .empty
  | some value => exact .number value

variable {value : Value} {plain : Plain}

theorem Agrees.number?_eq (agrees : value.Agrees plain) : value.number? = plain.number? := by
  cases agrees <;> rfl

theorem Agrees.force (agrees : value.Agrees plain) : value.force = pure plain := by
  cases agrees with
  | number value => exact force_number value
  | empty => exact force_empty
  | array answers _ => exact answers.force

theorem Agrees.render (agrees : value.Agrees plain) : value.render = pure plain.text := by
  rw [Value.render, agrees.force, pure_bind]

end Value

/-- What two lists related place by place have at one place. -/
theorem getElem?_of_forall₂ {α β : Type} {related : α → β → Prop} {xs : List α} {ys : List β}
    (all : List.Forall₂ related xs ys) (place : Nat) :
    xs[place]? = none ∧ ys[place]? = none ∨
      ∃ x y, xs[place]? = some x ∧ ys[place]? = some y ∧ related x y := by
  induction all generalizing place with
  | nil => exact .inl ⟨rfl, rfl⟩
  | cons here _ ih =>
    cases place with
    | zero => exact .inr ⟨_, _, rfl, rfl, here⟩
    | succ place => simpa using ih place

/-! ### Arrays of trees that do not draw -/

section Arrays

variable {elements : List Expr} {bindings : Bindings} {values : List Value} {list : List Plain}
  (evaluated : List.Forall₂ (fun e value => e.evaluate bindings = pure value) elements values)

include evaluated

theorem mapM_of_evaluated : elements.mapM (·.evaluate bindings) = pure values := by
  induction evaluated with
  | nil => rfl
  | cons here _ ih => rw [List.mapM_cons, here, ih, pure_bind, pure_bind]

theorem evaluateNumbers_of_evaluated :
    Expr.evaluateNumbers elements bindings = pure (values.mapM Value.number?) := by
  induction evaluated with
  | nil => exact Expr.evaluateNumbers_nil bindings
  | @cons e value _ _ here _ ih =>
    rw [Expr.evaluateNumbers_cons, here, pure_bind, List.mapM_cons]
    cases value.number? with
    | none => rfl
    | some x =>
      simp only [ih, pure_bind]
      rename_i values _
      cases values.mapM Value.number? <;> rfl

variable (agree : List.Forall₂ Value.Agrees values list)

include agree

theorem forceAll_of_evaluated : Expr.forceAll elements bindings = pure list := by
  induction evaluated generalizing list with
  | nil =>
    cases agree
    exact Expr.forceAll_nil bindings
  | cons here _ ih =>
    cases agree with
    | cons first others =>
      rw [Expr.forceAll_cons, here, pure_bind, first.force, pure_bind, ih others, pure_bind]

/-- An array of trees that do not draw answers as the list of their plain values. -/
theorem answers_of_evaluated : LazyArray.Answers ⟨elements, bindings⟩ values list where
  length := evaluated.length_eq.trans agree.length_eq
  isEmpty := by
    cases evaluated <;> cases agree <;> rfl
  get? := by
    intro place
    rcases getElem?_of_forall₂ evaluated place with ⟨no_tree, no_value⟩ | ⟨e, value, at_e, at_v, here⟩
    · simp only [LazyArray.get?, no_tree, no_value]
    · simp only [LazyArray.get?, at_e, at_v, here, pure_bind]
  each := mapM_of_evaluated evaluated
  select := by
    intro position
    have count : list.length = (⟨elements, bindings⟩ : LazyArray).length :=
      (evaluated.length_eq.trans agree.length_eq).symm
    rw [LazyArray.select, LazyArray.elementAt?, LazyArray.place?_eq, ← count]
    cases selectedPlace? list.length position with
    | none => rfl
    | some place =>
      simp only [Option.bind_some]
      rcases getElem?_of_forall₂ evaluated place with
        ⟨no_tree, no_value⟩ | ⟨e, value, at_e, at_v, here⟩
      · rw [no_tree, no_value]
        rfl
      · rw [at_e, at_v]
        exact here
  force := by
    rw [Value.force_array, forceAll_of_evaluated evaluated agree]
    rfl
  render := by
    rw [Value.render, Value.force_array, forceAll_of_evaluated evaluated agree]
    rfl

end Arrays

theorem mapM_number?_of_agree {values : List Value} {list : List Plain}
    (agree : List.Forall₂ Value.Agrees values list) :
    values.mapM Value.number? = list.mapM Plain.number? := by
  induction agree with
  | nil => rfl
  | cons here _ ih => rw [List.mapM_cons, List.mapM_cons, here.number?_eq, ih]

theorem MathFunction.apply_eq_value {function : MathFunction} (ne : function ≠ .random)
    (arguments : List Binary64) : function.apply arguments = pure (function.value arguments) := by
  obtain ⟨value, pure_value⟩ := apply_eq_pure ne arguments
  rw [MathFunction.value, pure_value]
  rfl

/-- What a plain value selects from another one. -/
def Plain.select (items position : Plain) : Plain :=
  match items, position.number? with
  | .list elements, some n =>
    ((selectedPlace? elements.length n).bind (elements[·]?)).getD .empty
  | _, _ => .empty

namespace Expr

/-- Evaluation of a tree draws nothing and gives a value that agrees with a plain one. -/
def Yields (bindings : Bindings) (e : Expr) (plain : Plain) : Prop :=
  ∃ value, e.evaluate bindings = pure value ∧ value.Agrees plain

/-! ### What a node yields, by what its subtrees yield -/

namespace Yields

variable {bindings : Bindings} {e left right condition yes no items position : Expr}
  {es : List Expr} {plain x y : Plain} {list : List Plain}

theorem force (yields : e.Yields bindings plain) :
    (do (← e.evaluate bindings).force) = (pure plain : Sampled Plain) := by
  obtain ⟨value, evaluated, agrees⟩ := yields
  rw [evaluated, pure_bind, agrees.force]

theorem render (yields : e.Yields bindings plain) :
    (do (← e.evaluate bindings).render) = (pure plain.text : Sampled String) := by
  obtain ⟨value, evaluated, agrees⟩ := yields
  rw [evaluated, pure_bind, agrees.render]

theorem unary (operand : e.Yields bindings x) (op : UnaryOperator) :
    (unary op e).Yields bindings (.ofNumber? (x.number?.bind op.value?)) := by
  obtain ⟨value, evaluated, agrees⟩ := operand
  refine ⟨_, ?_, Value.agrees_ofNumber? _⟩
  rw [evaluate_unary, evaluated, pure_bind, agrees.number?_eq]

theorem binary (first : left.Yields bindings x) (op : BinaryOperator)
    (second : right.Yields bindings y) : (binary op left right).Yields bindings
      (.ofNumber? do return op.value (← x.number?) (← y.number?)) := by
  obtain ⟨value, evaluated, agrees⟩ := first
  obtain ⟨value', evaluated', agrees'⟩ := second
  refine ⟨_, ?_, Value.agrees_ofNumber? _⟩
  rw [evaluate_binary, evaluated, pure_bind, evaluated', pure_bind, agrees.number?_eq,
    agrees'.number?_eq]

section Conditional

variable (flag : condition.Yields bindings x)

include flag

theorem conditional_none (none : x.number? = none) (yes no : Expr) :
    (conditional condition yes no).Yields bindings .empty := by
  obtain ⟨value, evaluated, agrees⟩ := flag
  refine ⟨.empty, ?_, .empty⟩
  rw [evaluate_conditional, evaluated, pure_bind, agrees.number?_eq, none]

/-- The branch that is not taken need not yield anything. -/
theorem conditional_yes {n : Binary64} (number : x.number? = some n) (truthy : n.isTruthy = true)
    (taken : yes.Yields bindings plain) (no : Expr) :
    (conditional condition yes no).Yields bindings plain := by
  obtain ⟨value, evaluated, agrees⟩ := flag
  obtain ⟨result, evaluated', agrees'⟩ := taken
  refine ⟨result, ?_, agrees'⟩
  rw [evaluate_conditional, evaluated, pure_bind, agrees.number?_eq, number]
  exact (if_pos truthy).trans evaluated'

theorem conditional_no {n : Binary64} (number : x.number? = some n) (falsy : n.isTruthy = false)
    (yes : Expr) (taken : no.Yields bindings plain) :
    (conditional condition yes no).Yields bindings plain := by
  obtain ⟨value, evaluated, agrees⟩ := flag
  obtain ⟨result, evaluated', agrees'⟩ := taken
  refine ⟨result, ?_, agrees'⟩
  rw [evaluate_conditional, evaluated, pure_bind, agrees.number?_eq, number]
  exact (if_neg (by simp [falsy])).trans evaluated'

end Conditional

/-- The values of trees, with what the trees yield. -/
theorem exists_values (all : List.Forall₂ (Yields bindings) es list) :
    ∃ values, List.Forall₂ (fun e value => e.evaluate bindings = pure value) es values ∧
      List.Forall₂ Value.Agrees values list := by
  induction all with
  | nil => exact ⟨[], .nil, .nil⟩
  | cons here _ ih =>
    obtain ⟨value, evaluated, agrees⟩ := here
    obtain ⟨values, others, agree⟩ := ih
    exact ⟨value :: values, .cons evaluated others, .cons agrees agree⟩

theorem array (all : List.Forall₂ (Yields bindings) es list) :
    (array es).Yields bindings (.list list) := by
  obtain ⟨values, evaluated, agree⟩ := exists_values all
  exact ⟨_, evaluate_array bindings es, .array (answers_of_evaluated evaluated agree) agree⟩

theorem index (source : items.Yields bindings x) (place : position.Yields bindings y) :
    (index items position).Yields bindings (x.select y) := by
  obtain ⟨value, evaluated, agrees⟩ := source
  obtain ⟨value', evaluated', agrees'⟩ := place
  rw [Yields, evaluate_index, evaluated, pure_bind, evaluated', pure_bind, agrees'.number?_eq]
  unfold Plain.select
  cases agrees with
  | number _ => exact ⟨.empty, rfl, .empty⟩
  | empty => exact ⟨.empty, rfl, .empty⟩
  | @array lazy values list answers agree =>
    cases y.number? with
    | none => exact ⟨.empty, rfl, .empty⟩
    | some n =>
      refine ⟨_, answers.select n, ?_⟩
      dsimp only
      cases selectedPlace? list.length n with
      | none => exact .empty
      | some k =>
        dsimp only [Option.bind_some]
        rcases getElem?_of_forall₂ agree k with ⟨no_value, no_plain⟩ | ⟨v, p, at_v, at_p, here⟩
        · rw [no_value, no_plain]
          exact .empty
        · rw [at_v, at_p]
          exact here

theorem call {function : MathFunction} (other : function ≠ .random)
    (all : List.Forall₂ (Yields bindings) es list) : (call function es).Yields bindings
      (match list.mapM Plain.number? with
        | none => .empty
        | some numbers => .number (function.value numbers)) := by
  obtain ⟨values, evaluated, agree⟩ := exists_values all
  rw [Yields, evaluate_call, evaluateNumbers_of_evaluated evaluated, pure_bind,
    mapM_number?_of_agree agree]
  cases list.mapM Plain.number? with
  | none => exact ⟨.empty, rfl, .empty⟩
  | some numbers =>
    refine ⟨.number (function.value numbers), ?_, .number _⟩
    dsimp only
    rw [MathFunction.apply_eq_value other, pure_bind]

end Yields

variable (bindings : Bindings)

mutual

/-- A tree that does not draw evaluates to a value that agrees with the reference. -/
theorem evaluate_agrees : ∀ e : Expr, e.callsRandom = false →
    e.Yields bindings (e.eager bindings)
  | .constant value, _ => ⟨_, evaluate_constant bindings value, .number value⟩
  | .argument name, _ => ⟨_, evaluate_argument bindings name, Value.agrees_ofNumber? _⟩
  | .unary op operand, calm => (evaluate_agrees operand calm).unary op
  | .binary op left right, calm => by
    obtain ⟨left_calm, right_calm⟩ := Bool.or_eq_false_iff.mp calm
    exact (evaluate_agrees left left_calm).binary op (evaluate_agrees right right_calm)
  | .conditional condition yes no, calm => by
    obtain ⟨calm, no_calm⟩ := Bool.or_eq_false_iff.mp calm
    obtain ⟨condition_calm, yes_calm⟩ := Bool.or_eq_false_iff.mp calm
    have flag := evaluate_agrees condition condition_calm
    rw [eager]
    cases number : (condition.eager bindings).number? with
    | none => exact flag.conditional_none number yes no
    | some x =>
      dsimp only
      cases truthy : x.isTruthy with
      | true => exact flag.conditional_yes number truthy (evaluate_agrees yes yes_calm) no
      | false => exact flag.conditional_no number truthy yes (evaluate_agrees no no_calm)
  | .array elements, calm => .array (evaluateAll_agrees elements calm)
  | .index items position, calm => by
    obtain ⟨items_calm, position_calm⟩ := Bool.or_eq_false_iff.mp calm
    rw [eager]
    exact (evaluate_agrees items items_calm).index (evaluate_agrees position position_calm)
  | .call function arguments, calm => by
    obtain ⟨other, calm⟩ := Bool.or_eq_false_iff.mp calm
    rw [eager]
    exact .call (by simpa using other) (evaluateAll_agrees arguments calm)

/-- The trees of a list that do not draw evaluate to values that agree with the reference. -/
theorem evaluateAll_agrees : ∀ es : List Expr, anyCallsRandom es = false →
    List.Forall₂ (Yields bindings) es (eagerAll es bindings)
  | [], _ => .nil
  | e :: es, calm => by
    obtain ⟨first_calm, others_calm⟩ := Bool.or_eq_false_iff.mp calm
    exact .cons (evaluate_agrees e first_calm) (evaluateAll_agrees es others_calm)

end

/-- Evaluating a tree that does not draw and forcing the value gives the reference's value, and
rendering it the reference's text. Every array among the values answers as the reference's
list; how positions select from that list is exact up to `2 ^ 53` elements. -/
theorem evaluate_eq_eager (e : Expr) (calm : e.callsRandom = false) :
    (do (← e.evaluate bindings).force) = (pure (e.eager bindings) : Sampled Plain) ∧
    (do (← e.evaluate bindings).render) = (pure (e.eager bindings).text : Sampled String) ∧
    (∃ value, e.evaluate bindings = pure value ∧ value.Agrees (e.eager bindings)) ∧
    ∀ length ≤ 2 ^ 53, ∀ position,
      selectedPlace? length position = exactPlace? length position := by
  obtain ⟨value, evaluated, agrees⟩ := evaluate_agrees bindings e calm
  refine ⟨?_, ?_, ⟨value, evaluated, agrees⟩, ?_⟩
  · rw [evaluated, pure_bind, agrees.force]
  · rw [evaluated, pure_bind, agrees.render]
  · exact fun length few position => selectedPlace?_eq_exactPlace? few position

/-- An array in an array, selected by not-a-number, with an element that has no value. -/
def nestedArrays : Expr :=
  .index (.array [.array [.argument "x", .unary .not (.argument "x")], .argument "i"])
    (.constant .nan)

theorem evaluate_eq_eager_nestedArrays :
    nestedArrays.callsRandom = false ∧
    (do (← nestedArrays.evaluate (.selection default 0)).force) =
      (pure (.list [.number default, .empty]) : Sampled Plain) := by
  have first : selectedPlace? 2 .nan = some 0 := by
    rw [selectedPlace?_eq_exactPlace? (by decide)]
    rfl
  have forced : nestedArrays.eager (.selection default 0) = .list [.number default, .empty] := by
    simp [nestedArrays, eager, eagerAll, first, Plain.number?, Plain.ofNumber?, Bindings.get?,
      Bindings.extra?, Bindings.selection, UnaryOperator.value?]
  obtain ⟨force, -⟩ := evaluate_eq_eager (.selection default 0) nestedArrays rfl
  rw [forced] at force
  exact ⟨rfl, force⟩

end Expr

end SelectionFormula
