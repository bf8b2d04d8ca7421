import SelectionFormula.Proofs.Value.Context

/-!
Absence spreads upward.

A node is strict in a subtree that it needs a number from, or an array to select from
(`Layer.isStrict`): an operand of any operator, a condition, both sides of an indexing, an
argument. When what it needs is not there the node has no value (`Layer.evaluate_fill`), and so
has every tree around it that is strict in it, at any depth (`fill_of_absent`). The trees
beside are arbitrary: no truthy operand, index or early argument decides first.

They may also draw. What is in a hole is therefore evaluated from the source as evaluation leaves
it on the way there (`Layer.arrival`, `Context.arrival`).
-/

namespace SelectionFormula.Expr

variable {bindings : Bindings} {draws : Draws} {e : Expr}

/-! ### One node -/

namespace Layer

/-- Whether the node has a value only if the subtree that is put in has one. -/
def isStrict : Layer → Bool
  | yes .. | no .. | element .. => false
  | _ => true

/-- A value is not what the node needs: no array to select from, or no number. -/
def Refuses : Layer → Value → Prop
  | items _, value => value.array? = none
  | _, value => value.number? = none

/-- The source as the node's evaluation leaves it on the way to the subtree that is put in. -/
def arrival (bindings : Bindings) (draws : Draws) : Layer → Draws
  | right _ other | yes other _ | no other _ | position other => (other.evaluate bindings draws).2
  | argument _ before _ => (evaluateNumbers before bindings draws).2
  | _ => draws

theorem refuses_empty (layer : Layer) : layer.Refuses .empty := by
  cases layer <;> rfl

/-- An array is of use where it is selected from and nowhere else. -/
theorem refuses_array {layer : Layer} (elsewhere : ∀ position, layer ≠ .items position)
    (items : LazyArray) : layer.Refuses (.array items) := by
  cases layer with
  | items position => exact absurd rfl (elsewhere position)
  | _ => rfl

end Layer

/-- One argument that is not a number is enough. -/
theorem evaluateNumbers_around {before : List Expr} (after : List Expr)
    (absent : (e.evaluate bindings (evaluateNumbers before bindings draws).2).1.number? = none) :
    (evaluateNumbers (before ++ e :: after) bindings draws).1 = none := by
  induction before generalizing draws with
  | nil =>
    rw [evaluateNumbers_nil] at absent
    have here : (e.evaluate bindings draws).1.number? = none := absent
    rw [List.nil_append, evaluateNumbers_cons, bind_apply, here]
    rfl
  | cons first before ih =>
    rw [evaluateNumbers_cons, bind_apply] at absent
    rw [List.cons_append, evaluateNumbers_cons, bind_apply]
    -- An argument before that is not a number decides, and nothing behind it is evaluated.
    cases number : (first.evaluate bindings draws).1.number? with
    | none => rfl
    | some x =>
      rw [number] at absent
      have later := ih absent
      dsimp only
      rw [bind_apply, later]
      rfl

/-- A node that is strict in a subtree has no value when that has not what the node needs. -/
theorem Layer.evaluate_fill {layer : Layer} (strict : layer.isStrict = true)
    (refused : layer.Refuses (e.evaluate bindings (layer.arrival bindings draws)).1) :
    ((layer.fill e).evaluate bindings draws).1 = .empty := by
  cases layer with
  | operand op =>
    have absent : (e.evaluate bindings draws).1.number? = none := refused
    rw [fill, evaluate_unary, bind_apply, absent]
    rfl
  | left op right =>
    have absent : (e.evaluate bindings draws).1.number? = none := refused
    rw [fill, evaluate_binary, bind_apply, bind_apply, absent]
    rfl
  | right op left =>
    have absent : (e.evaluate bindings (left.evaluate bindings draws).2).1.number? = none := refused
    rw [fill, evaluate_binary, bind_apply, bind_apply, absent]
    -- The operand on the left is evaluated, but its number alone gives none.
    cases (left.evaluate bindings draws).1.number? <;> rfl
  | condition yes no =>
    have absent : (e.evaluate bindings draws).1.number? = none := refused
    rw [fill, evaluate_conditional, bind_apply, absent]
    rfl
  | items position =>
    have absent : (e.evaluate bindings draws).1.array? = none := refused
    rw [fill, evaluate_index, bind_apply, bind_apply]
    cases source : (e.evaluate bindings draws).1 with
    | array items =>
      rw [source] at absent
      cases absent
    | _ => rfl
  | position items =>
    have absent : (e.evaluate bindings (items.evaluate bindings draws).2).1.number? = none :=
      refused
    rw [fill, evaluate_index, bind_apply, bind_apply, absent]
    cases (items.evaluate bindings draws).1 <;> rfl
  | argument function before after =>
    have absent : (evaluateNumbers (before ++ e :: after) bindings draws).1 = none :=
      evaluateNumbers_around after refused
    rw [fill, evaluate_call, bind_apply, absent]
    rfl
  | yes | no | element => cases strict

/-! ### Any number of nodes -/

/-- The source as evaluation leaves it on the way down to the hole. -/
def Context.arrival (bindings : Bindings) : Context → Draws → Draws
  | [], draws => draws
  | layer :: inner, draws => Context.arrival bindings inner (layer.arrival bindings draws)

/-- If the node above a hole has not what it needs, nothing above that has a value. -/
theorem Context.evaluate_fill {context : Context}
    (strict : ∀ layer ∈ context, layer.isStrict = true) {innermost : Layer}
    (last : context.getLast? = some innermost)
    (refused : innermost.Refuses (e.evaluate bindings (context.arrival bindings draws)).1) :
    ((context.fill e).evaluate bindings draws).1 = .empty := by
  induction context generalizing draws with
  | nil => cases last
  | cons layer inner ih =>
    have here : layer.isStrict = true := strict layer (List.mem_cons_self ..)
    cases inner with
    | nil =>
      cases last
      exact Layer.evaluate_fill here refused
    | cons next inner =>
      have below := ih (fun layer mem => strict layer (List.mem_cons_of_mem _ mem)) last refused
      refine Layer.evaluate_fill (e := Context.fill (next :: inner) e) here ?_
      rw [below]
      exact layer.refuses_empty

/-- A tree without a value leaves every tree around it that is strict in it without one, and so
does an array that is not selected from. -/
theorem fill_of_absent {context : Context} (strict : ∀ layer ∈ context, layer.isStrict = true)
    (nonempty : context ≠ [])
    (absent : (e.evaluate bindings (context.arrival bindings draws)).1 = .empty ∨
      (∃ items, (e.evaluate bindings (context.arrival bindings draws)).1 = .array items) ∧
        ∀ position, context.getLast? ≠ some (.items position)) :
    ((context.fill e).evaluate bindings draws).1 = .empty ∧
      ((do (← (context.fill e).evaluate bindings).render : Sampled String) draws).1 = "" := by
  obtain ⟨innermost, last⟩ : ∃ innermost, context.getLast? = some innermost :=
    ⟨_, List.getLast?_eq_some_getLast nonempty⟩
  have refused : innermost.Refuses (e.evaluate bindings (context.arrival bindings draws)).1 := by
    rcases absent with empty | ⟨⟨items, array⟩, elsewhere⟩
    · rw [empty]
      exact innermost.refuses_empty
    · rw [array]
      exact Layer.refuses_array (fun position same => elsewhere position (same ▸ last)) items
  have whole := Context.evaluate_fill strict last refused
  refine ⟨whole, ?_⟩
  rw [bind_apply, whole, Value.render, Value.force_empty]
  rfl

/-- `-max(random(), (x || _)[i])`, with the hole behind a truthy operand. -/
def strictNest : Context :=
  [.operand .negate, .argument .max [.call .random []] [], .items (.argument "i"),
    .right .or (.argument "x")]

/-- A name that stands for nothing in the hole, and an array where the nest's indexing stood. -/
theorem fill_of_absent_strictNest :
    ((strictNest.fill (.argument "y")).evaluate (.selection .one 0) (.seeded 0)).1 = .empty ∧
    ((Context.fill (strictNest.take 2) (.array [.argument "x"])).evaluate (.selection .one 0)
      (.seeded 0)).1 = .empty := by
  have strict : ∀ layer ∈ strictNest, layer.isStrict = true := by simp [strictNest, Layer.isStrict]
  have unbound (draws : Draws) :
      ((argument "y").evaluate (.selection .one 0) draws).1 = .empty := by
    rw [evaluate_argument]
    rfl
  have array (draws : Draws) :
      ((Expr.array [.argument "x"]).evaluate (.selection .one 0) draws).1 =
        .array ⟨[.argument "x"], .selection .one 0⟩ := by
    rw [evaluate_array]
    rfl
  constructor
  · exact (fill_of_absent strict (by simp [strictNest]) (.inl (unbound _))).1
  · have front : ∀ layer ∈ strictNest.take 2, layer.isStrict = true :=
      fun layer mem => strict layer (List.mem_of_mem_take mem)
    have elsewhere (position : Expr) : (strictNest.take 2).getLast? ≠ some (.items position) := by
      simp [strictNest]
    exact (fill_of_absent front (by simp [strictNest]) (.inr ⟨⟨_, array _⟩, elsewhere⟩)).1

end SelectionFormula.Expr
