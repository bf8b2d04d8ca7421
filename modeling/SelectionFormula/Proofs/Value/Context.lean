import SelectionFormula.Proofs.Value.Eager

/-!
Trees with a hole, and holes that evaluation does not come to.

A context is a tree with a hole, told by the nodes from its root down to the hole
(`Expr.Context`). A tree that yields a plain value makes its context yield one, which nothing
else about the tree decides (`Layer.yields_fill`). A hole is unread where it stands in the
branch that a condition does not take, or in the element of an array that a position does not
select (`Unread`). There even a tree that draws makes no difference: what is above it has one
plain value and one text, whatever is in the hole (`fill_of_unread`).
-/

namespace SelectionFormula.Expr

/-- A node with one of its subtrees taken out. -/
inductive Layer where
  | operand (op : UnaryOperator)
  | left (op : BinaryOperator) (right : Expr)
  | right (op : BinaryOperator) (left : Expr)
  | condition (yes no : Expr)
  | yes (condition no : Expr)
  | no (condition yes : Expr)
  | element (before after : List Expr)
  | items (position : Expr)
  | position (items : Expr)
  | argument (function : MathFunction) (before after : List Expr)

namespace Layer

/-- The node with a tree put in. -/
def fill : Layer → Expr → Expr
  | .operand op, e => .unary op e
  | .left op other, e => .binary op e other
  | .right op other, e => .binary op other e
  | .condition x y, e => .conditional e x y
  | .yes x y, e => .conditional x e y
  | .no x y, e => .conditional x y e
  | .element before after, e => .array (before ++ e :: after)
  | .items other, e => .index e other
  | .position other, e => .index other e
  | .argument function before after, e => .call function (before ++ e :: after)

/-- Whether the node draws, or one of the subtrees that are left. -/
def callsRandom : Layer → Bool
  | operand _ => false
  | left _ other | right _ other | items other | position other => other.callsRandom
  | condition x y | yes x y | no x y => x.callsRandom || y.callsRandom
  | element before after => anyCallsRandom before || anyCallsRandom after
  | argument function before after =>
    function == .random || (anyCallsRandom before || anyCallsRandom after)

end Layer

/-- A tree with a hole: the nodes above the hole, outermost first. -/
abbrev Context := List Layer

namespace Context

def fill (context : Context) (e : Expr) : Expr :=
  context.foldr Layer.fill e

/-- Whether a node of a context draws, or a tree beside the hole. -/
def callsRandom (context : Context) : Bool :=
  context.any Layer.callsRandom

end Context

theorem anyCallsRandom_append (before after : List Expr) :
    anyCallsRandom (before ++ after) = (anyCallsRandom before || anyCallsRandom after) := by
  simp [anyCallsRandom_eq_any]

theorem Layer.callsRandom_fill (layer : Layer) (e : Expr) :
    (layer.fill e).callsRandom = (layer.callsRandom || e.callsRandom) := by
  cases layer <;>
    simp [fill, callsRandom, Expr.callsRandom, anyCallsRandom_append, anyCallsRandom,
      Bool.or_assoc, Bool.or_comm]

/-- A filled context draws where the context does or what is put in. -/
theorem Context.callsRandom_fill (context : Context) (e : Expr) :
    (context.fill e).callsRandom = (context.callsRandom || e.callsRandom) := by
  induction context with
  | nil => rfl
  | cons layer inner ih =>
    change (layer.fill (Context.fill inner e)).callsRandom = _
    rw [layer.callsRandom_fill, ih, ← Bool.or_assoc]
    rfl

/-! ### What is above a tree that yields a plain value -/

section Yields

variable {bindings : Bindings}

theorem yields_around {before after : List Expr} (before_calm : anyCallsRandom before = false)
    (after_calm : anyCallsRandom after = false) {e : Expr} {plain : Plain}
    (here : e.Yields bindings plain) : List.Forall₂ (Yields bindings) (before ++ e :: after)
      (eagerAll before bindings ++ plain :: eagerAll after bindings) :=
  List.rel_append (evaluateAll_agrees bindings before before_calm)
    (.cons here (evaluateAll_agrees bindings after after_calm))

/-- What a node yields is decided by what the tree put in yields. -/
theorem Layer.yields_fill {layer : Layer} (calm : layer.callsRandom = false) (plain : Plain) :
    ∃ whole, ∀ e : Expr, e.Yields bindings plain → (layer.fill e).Yields bindings whole := by
  cases layer with
  | operand op => exact ⟨_, fun e here => here.unary op⟩
  | left op right => exact ⟨_, fun e here => here.binary op (evaluate_agrees bindings right calm)⟩
  | right op left =>
    exact ⟨_, fun e here => (evaluate_agrees bindings left calm).binary op here⟩
  | condition yes no =>
    obtain ⟨yes_calm, no_calm⟩ := Bool.or_eq_false_iff.mp calm
    cases number : plain.number? with
    | none => exact ⟨_, fun e here => here.conditional_none number yes no⟩
    | some x =>
      cases truthy : x.isTruthy with
      | true => exact ⟨_, fun e here =>
          here.conditional_yes number truthy (evaluate_agrees bindings yes yes_calm) no⟩
      | false => exact ⟨_, fun e here =>
          here.conditional_no number truthy yes (evaluate_agrees bindings no no_calm)⟩
  | yes condition no =>
    obtain ⟨condition_calm, no_calm⟩ := Bool.or_eq_false_iff.mp calm
    have flag := evaluate_agrees bindings condition condition_calm
    cases number : (condition.eager bindings).number? with
    | none => exact ⟨_, fun e _ => flag.conditional_none number e no⟩
    | some x =>
      cases truthy : x.isTruthy with
      | true => exact ⟨_, fun e here => flag.conditional_yes number truthy here no⟩
      | false => exact ⟨_, fun e _ =>
          flag.conditional_no number truthy e (evaluate_agrees bindings no no_calm)⟩
  | no condition yes =>
    obtain ⟨condition_calm, yes_calm⟩ := Bool.or_eq_false_iff.mp calm
    have flag := evaluate_agrees bindings condition condition_calm
    cases number : (condition.eager bindings).number? with
    | none => exact ⟨_, fun e _ => flag.conditional_none number yes e⟩
    | some x =>
      cases truthy : x.isTruthy with
      | true => exact ⟨_, fun e _ =>
          flag.conditional_yes number truthy (evaluate_agrees bindings yes yes_calm) e⟩
      | false => exact ⟨_, fun e here => flag.conditional_no number truthy yes here⟩
  | element before after =>
    obtain ⟨before_calm, after_calm⟩ := Bool.or_eq_false_iff.mp calm
    exact ⟨_, fun e here => .array (yields_around before_calm after_calm here)⟩
  | items position =>
    exact ⟨_, fun e here => here.index (evaluate_agrees bindings position calm)⟩
  | position items =>
    exact ⟨_, fun e here => (evaluate_agrees bindings items calm).index here⟩
  | argument function before after =>
    obtain ⟨other, calm⟩ := Bool.or_eq_false_iff.mp calm
    obtain ⟨before_calm, after_calm⟩ := Bool.or_eq_false_iff.mp calm
    exact ⟨_, fun e here =>
      .call (by simpa using other) (yields_around before_calm after_calm here)⟩

/-! ### Holes that are not read -/

/-- The hole of a context is in the branch that a condition does not take, or in an element
that a position does not select. -/
inductive Unread (bindings : Bindings) : Context → Prop
  | yes {condition no : Expr} {x : Binary64} {inner : Context} :
      condition.evaluate bindings = pure (.number x) → x.isTruthy = false →
      Unread bindings (.yes condition no :: inner)
  | no {condition yes : Expr} {x : Binary64} {inner : Context} :
      condition.evaluate bindings = pure (.number x) → x.isTruthy = true →
      Unread bindings (.no condition yes :: inner)
  | element {before after : List Expr} {position : Expr} {n : Binary64} {inner : Context} :
      position.evaluate bindings = pure (.number n) → n.integerPart? ≠ some (before.length : Int) →
      Unread bindings (.items position :: .element before after :: inner)
  | within {layer : Layer} {inner : Context} :
      Unread bindings inner → Unread bindings (layer :: inner)

/-- The place that a number selects is its integer part. -/
theorem integerPart?_of_selectedPlace? {length place : Nat} {position : Binary64}
    (selected : selectedPlace? length position = some place) :
    position.integerPart? = some (place : Int) := by
  obtain ⟨i, part, found⟩ := Option.bind_eq_some_iff.mp selected
  split at found
  · cases found
  · next inside =>
    cases found
    rw [part, Int.toNat_of_nonneg (Int.not_lt.mp fun below => inside (.inl below))]

/-- The elements of a list but the one at a place. -/
theorem getElem?_around {α : Type} {before after : List α} {place : Nat}
    (other : place ≠ before.length) (x y : α) :
    (before ++ x :: after)[place]? = (before ++ y :: after)[place]? := by
  rcases Nat.lt_or_gt_of_ne other with front | behind
  · rw [List.getElem?_append_left front, List.getElem?_append_left front]
  · rw [List.getElem?_append_right (Nat.le_of_lt behind),
      List.getElem?_append_right (Nat.le_of_lt behind)]
    obtain ⟨k, rfl⟩ : ∃ k, place = before.length + (k + 1) := ⟨place - before.length - 1, by omega⟩
    simp

/-- The element at a place has no part in which one is at another. -/
theorem elementAt?_around {before after : List Expr} {n : Binary64}
    (other : n.integerPart? ≠ some (before.length : Int)) (e e' : Expr) :
    (⟨before ++ e :: after, bindings⟩ : LazyArray).elementAt? n =
      (⟨before ++ e' :: after, bindings⟩ : LazyArray).elementAt? n := by
  have length : (⟨before ++ e :: after, bindings⟩ : LazyArray).length =
      (⟨before ++ e' :: after, bindings⟩ : LazyArray).length := by
    simp [LazyArray.length]
  rw [LazyArray.elementAt?, LazyArray.elementAt?, LazyArray.place?_eq, LazyArray.place?_eq, length]
  cases selected : selectedPlace? (⟨before ++ e' :: after, bindings⟩ : LazyArray).length n with
  | none => rfl
  | some k =>
    have away : k ≠ before.length := by
      rintro rfl
      exact other (integerPart?_of_selectedPlace? selected)
    exact getElem?_around away e e'

/-- Elements that a position does not select have no part in what it does. -/
theorem yields_unselected {before after : List Expr} (before_calm : anyCallsRandom before = false)
    (after_calm : anyCallsRandom after = false) {position : Expr} {n : Binary64}
    (place : position.evaluate bindings = pure (.number n))
    (other : n.integerPart? ≠ some (before.length : Int)) :
    ∃ plain, ∀ e, (index (array (before ++ e :: after)) position).Yields bindings plain := by
  -- Any tree will do for the element that is not selected; take one that does not draw.
  have calm : (array []).Yields bindings (.list []) := .array .nil
  obtain ⟨plain, whole⟩ : ∃ plain,
      (index (array (before ++ array [] :: after)) position).Yields bindings plain :=
    ⟨_, (Yields.array (yields_around before_calm after_calm calm)).index ⟨_, place, .number n⟩⟩
  refine ⟨plain, fun e => ?_⟩
  have same : (index (array (before ++ e :: after)) position).evaluate bindings =
      (index (array (before ++ array [] :: after)) position).evaluate bindings := by
    simp only [evaluate_index, evaluate_array, place, pure_bind, Value.number?]
    rw [LazyArray.select, LazyArray.select, elementAt?_around other e (array [])]
  rw [Yields, same]
  exact whole

/-- Whatever is in a hole that is not read, the context yields one plain value. -/
theorem yields_of_unread {context : Context} (unread : Unread bindings context)
    (calm : context.callsRandom = false) :
    ∃ plain, ∀ e, (context.fill e).Yields bindings plain := by
  induction unread with
  | @yes condition no x inner evaluated falsy =>
    obtain ⟨here, -⟩ := Bool.or_eq_false_iff.mp calm
    obtain ⟨-, no_calm⟩ := Bool.or_eq_false_iff.mp here
    have flag : condition.Yields bindings (.number x) := ⟨_, evaluated, .number x⟩
    exact ⟨_, fun e => flag.conditional_no rfl falsy _ (evaluate_agrees bindings no no_calm)⟩
  | @no condition yes x inner evaluated truthy =>
    obtain ⟨here, -⟩ := Bool.or_eq_false_iff.mp calm
    obtain ⟨-, yes_calm⟩ := Bool.or_eq_false_iff.mp here
    have flag : condition.Yields bindings (.number x) := ⟨_, evaluated, .number x⟩
    exact ⟨_, fun e => flag.conditional_yes rfl truthy (evaluate_agrees bindings yes yes_calm) _⟩
  | @element before after position n inner evaluated other =>
    obtain ⟨-, rest⟩ := Bool.or_eq_false_iff.mp calm
    obtain ⟨here, -⟩ := Bool.or_eq_false_iff.mp rest
    obtain ⟨before_calm, after_calm⟩ := Bool.or_eq_false_iff.mp here
    obtain ⟨plain, yields⟩ := yields_unselected before_calm after_calm evaluated other
    exact ⟨plain, fun e => yields (Context.fill inner e)⟩
  | @within layer inner _ ih =>
    obtain ⟨here, inner_calm⟩ := Bool.or_eq_false_iff.mp calm
    obtain ⟨plain, yields⟩ := ih inner_calm
    obtain ⟨whole, above⟩ := layer.yields_fill here plain
    exact ⟨whole, fun e => above _ (yields e)⟩

end Yields

/-- Whatever is in a hole that is not read, a context that does not draw is forced to one
plain value and rendered to one text. -/
theorem fill_of_unread {bindings : Bindings} {context : Context}
    (unread : Unread bindings context) (calm : context.callsRandom = false) :
    ∃ plain, ∀ e,
      (do (← (context.fill e).evaluate bindings).force) = (pure plain : Sampled Plain) ∧
      (do (← (context.fill e).evaluate bindings).render) = (pure plain.text : Sampled String) := by
  obtain ⟨plain, yields⟩ := yields_of_unread unread calm
  exact ⟨plain, fun e => ⟨(yields e).force, (yields e).render⟩⟩

/-- `[i, x ? _ : i]`, with the hole in the branch for numbers other than zero. -/
def guardedElement : Context :=
  [.element [.argument "i"] [], .yes (.argument "x") (.argument "i")]

/-- At zero nothing is drawn for the hole, and it makes no difference to the array. -/
theorem fill_of_unread_guardedElement :
    Unread (.selection (.zero false) 0) guardedElement ∧ guardedElement.callsRandom = false ∧
    ∃ plain : Plain,
      (do (← (guardedElement.fill (.call .random [])).evaluate (.selection (.zero false) 0)).force)
        = (pure plain : Sampled Plain) ∧
      (do (← (guardedElement.fill (.argument "y")).evaluate (.selection (.zero false) 0)).force)
        = (pure plain : Sampled Plain) := by
  have zero : (argument "x").evaluate (.selection (.zero false) 0) =
      pure (.number (.zero false)) := by
    rw [evaluate_argument]
    rfl
  have unread : Unread (.selection (.zero false) 0) guardedElement := .within (.yes zero rfl)
  obtain ⟨plain, same⟩ := fill_of_unread unread rfl
  exact ⟨unread, rfl, plain, (same _).1, (same _).1⟩

end SelectionFormula.Expr
