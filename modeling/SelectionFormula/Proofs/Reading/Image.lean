import Mathlib
import SelectionFormula.Formula
import SelectionFormula.Proofs.Decimal.Unsigned
import SelectionFormula.Proofs.Reading.Derivation
import SelectionFormula.Proofs.Value.Eager

/-!
Which trees reading can give.

Every node of an accepted text's tree is one that reading builds (`Expr.Built`): a call has
as many arguments as its function takes, a name is one, a constant is a number without a
sign, and neither the sign in front of an operand nor a shift occurs. So a formula compares
as the same as itself, and formulas whose trees compare as the same have equal trees
(`Expr.eq_of_sameTree`) and, when they do not draw, one text for every bindings
(`image_of_parse`).
-/

namespace SelectionFormula

open Text Binary64

theorem BinaryOperator.ne_shift {op : BinaryOperator} (firm : op.isShift = false) :
    op ≠ .shiftLeft ∧ op ≠ .shiftRight ∧ op ≠ .shiftRightUnsigned := by
  revert firm
  cases op <;> decide

/-! ### Arguments that are there -/

/-- A function that takes a fixed number of arguments reads none behind them. -/
theorem MathFunction.apply_append {function : MathFunction} {values : List Binary64}
    (fits : function.arity.accepts values.length = true) (fixed : function.arity ≠ .any)
    (further : List Binary64) : function.apply (values ++ further) = function.apply values := by
  have one : Arity.accepts (.exactly 1) values.length = true → ∃ x, values = [x] :=
    fun fits => List.length_eq_one_iff.mp (beq_iff_eq.mp fits).symm
  have two : Arity.accepts (.exactly 2) values.length = true → ∃ x y, values = [x, y] :=
    fun fits => List.length_eq_two.mp (beq_iff_eq.mp fits).symm
  cases function with
  | random => rfl
  | hypot | max | min => exact absurd rfl fixed
  | atan2 | imul | pow =>
    obtain ⟨x, y, rfl⟩ := two fits
    rfl
  | _ =>
    obtain ⟨x, rfl⟩ := one fits
    rfl

namespace Expr

theorem length_of_evaluateNumbers {es : List Expr} {bindings : Bindings} {draws : Draws}
    {values : List Binary64} (evaluated : (evaluateNumbers es bindings draws).1 = some values) :
    values.length = es.length := by
  induction es generalizing draws values with
  | nil =>
    rw [evaluateNumbers_nil] at evaluated
    cases evaluated
    rfl
  | cons e es ih =>
    rw [evaluateNumbers_cons] at evaluated
    rw [bind_apply] at evaluated
    cases number : (e.evaluate bindings draws).1.number? with
    | none =>
      rw [number] at evaluated
      cases evaluated
    | some x =>
      rw [number] at evaluated
      obtain ⟨others, later, rfl⟩ := Option.map_eq_some_iff.mp evaluated
      exact congrArg (· + 1) (ih later)

/-! ### The nodes of a tree -/

mutual

/-- A tree and all the trees in it. -/
def nodes : Expr → List Expr
  | constant value => [constant value]
  | argument name => [argument name]
  | unary op operand => unary op operand :: operand.nodes
  | binary op left right => binary op left right :: (left.nodes ++ right.nodes)
  | conditional condition yes no =>
    conditional condition yes no :: (condition.nodes ++ yes.nodes ++ no.nodes)
  | array elements => array elements :: nodesAll elements
  | index items position => index items position :: (items.nodes ++ position.nodes)
  | call function arguments => call function arguments :: nodesAll arguments

/-- All the trees in several trees. -/
def nodesAll : List Expr → List Expr
  | [] => []
  | e :: es => e.nodes ++ nodesAll es

end

theorem forall_mem_nodesAll {motive : Expr → Prop} {es : List Expr} :
    (∀ node ∈ nodesAll es, motive node) ↔ ∀ e ∈ es, ∀ node ∈ e.nodes, motive node := by
  induction es with
  | nil => simp [nodesAll]
  | cons e es ih => simp [nodesAll, or_imp, forall_and, ih]

/-- Whatever the arguments evaluate to, the function reads none behind them. -/
def ReadsGiven (function : MathFunction) (arguments : List Expr) : Prop :=
  ∀ bindings draws values, (evaluateNumbers arguments bindings draws).1 = some values →
    function.arity ≠ .any → ∀ further, function.apply (values ++ further) = function.apply values

/-- What reading builds at the top of a tree. -/
def Built : Expr → Prop
  | constant value => Unsigned value
  | argument name => isArgumentName name.toList = true
  | unary op _ => op ≠ .negate
  | binary op _ _ => op ≠ .shiftLeft ∧ op ≠ .shiftRight ∧ op ≠ .shiftRightUnsigned
  | call function arguments =>
    function.arity.accepts arguments.length = true ∧ ReadsGiven function arguments
  | _ => True

/-- A tree with nothing in it that reading does not build. -/
def WellBuilt (e : Expr) : Prop :=
  ∀ node ∈ e.nodes, node.Built

theorem readsGiven_of_accepts {function : MathFunction} {arguments : List Expr}
    (fits : function.arity.accepts arguments.length = true) : ReadsGiven function arguments := by
  intro bindings draws values evaluated fixed further
  rw [← length_of_evaluateNumbers evaluated] at fits
  exact MathFunction.apply_append fits fixed further

/-- Every tree of the grammar is well built. -/
theorem wellBuilt_of_derives {text : List Char} {e : Expr} (derives : Derives text e) :
    e.WellBuilt := by
  have lists : ∀ {items : List (List Char × Expr)}, (∀ item ∈ items, item.2.WellBuilt) →
      ∀ node ∈ nodesAll (items.map (·.2)), node.Built := by
    intro items all
    rw [forall_mem_nodesAll]
    intro e mem
    obtain ⟨item, inside, rfl⟩ := List.mem_map.mp mem
    exact all item inside
  unfold WellBuilt
  induction derives with
  | padded _ _ _ ih => exact ih
  | group _ ih => exact ih
  | constant accepted _ => simpa [nodes, Built] using Literal.unsigned_of_number? accepted
  | argument isName => simpa [nodes, Built] using isName
  | unary op_ne _ ih => exact List.forall_mem_cons.mpr ⟨op_ne, ih⟩
  | @binary op _ _ _ _ firm _ _ left right =>
    exact List.forall_mem_cons.mpr
      ⟨BinaryOperator.ne_shift firm, List.forall_mem_append.mpr ⟨left, right⟩⟩
  | conditional _ _ _ condition yes no =>
    exact List.forall_mem_cons.mpr ⟨trivial,
      List.forall_mem_append.mpr ⟨List.forall_mem_append.mpr ⟨condition, yes⟩, no⟩⟩
  | array _ ih => exact List.forall_mem_cons.mpr ⟨trivial, lists ih⟩
  | index _ _ items position =>
    exact List.forall_mem_cons.mpr ⟨trivial, List.forall_mem_append.mpr ⟨items, position⟩⟩
  | @call name function items _ _ fits _ ih =>
    have count : function.arity.accepts (items.map (·.2)).length = true := by
      rwa [List.length_map]
    exact List.forall_mem_cons.mpr ⟨⟨count, readsGiven_of_accepts count⟩, lists ih⟩

/-! ### Comparing trees -/

section Parts

variable {op : UnaryOperator} {op' : BinaryOperator} {function : MathFunction}
  {x y z : Expr} {es : List Expr}

theorem WellBuilt.unary (built : (unary op x).WellBuilt) : x.WellBuilt :=
  (List.forall_mem_cons.mp built).2

theorem WellBuilt.binary (built : (binary op' x y).WellBuilt) : x.WellBuilt ∧ y.WellBuilt :=
  List.forall_mem_append.mp (List.forall_mem_cons.mp built).2

theorem WellBuilt.conditional (built : (conditional x y z).WellBuilt) :
    (x.WellBuilt ∧ y.WellBuilt) ∧ z.WellBuilt :=
  (List.forall_mem_append.mp (List.forall_mem_cons.mp built).2).imp_left List.forall_mem_append.mp

theorem WellBuilt.index (built : (index x y).WellBuilt) : x.WellBuilt ∧ y.WellBuilt :=
  List.forall_mem_append.mp (List.forall_mem_cons.mp built).2

theorem WellBuilt.array (built : (array es).WellBuilt) : ∀ e ∈ es, e.WellBuilt :=
  forall_mem_nodesAll.mp (List.forall_mem_cons.mp built).2

theorem WellBuilt.call (built : (call function es).WellBuilt) : ∀ e ∈ es, e.WellBuilt :=
  forall_mem_nodesAll.mp (List.forall_mem_cons.mp built).2

end Parts

theorem WellBuilt.constant {value : Binary64} (built : (constant value).WellBuilt) :
    Unsigned value :=
  built _ List.mem_cons_self

mutual

theorem sameTree_self : ∀ x : Expr, x.WellBuilt → x.sameTree x = true
  | .constant value, built => sameNumber_self built.constant.isNaN
  | .argument name, _ => by simp [sameTree]
  | .unary op x, built => by simp [sameTree, sameTree_self x built.unary]
  | .binary op x y, built => by
    simp [sameTree, sameTree_self x built.binary.1, sameTree_self y built.binary.2]
  | .conditional c x y, built => by
    obtain ⟨⟨hc, hx⟩, hy⟩ := built.conditional
    simp [sameTree, sameTree_self c hc, sameTree_self x hx, sameTree_self y hy]
  | .array xs, built => by simpa [sameTree] using sameTrees_self xs built.array
  | .index x y, built => by
    simp [sameTree, sameTree_self x built.index.1, sameTree_self y built.index.2]
  | .call function xs, built => by simpa [sameTree] using sameTrees_self xs built.call

theorem sameTrees_self : ∀ xs : List Expr, (∀ x ∈ xs, x.WellBuilt) → sameTrees xs xs = true
  | [], _ => rfl
  | x :: xs, built => by
    obtain ⟨first, others⟩ := List.forall_mem_cons.mp built
    simp [sameTrees, sameTree_self x first, sameTrees_self xs others]

end

mutual

/-- Well built trees that compare as the same are equal. -/
theorem eq_of_sameTree : ∀ x y : Expr, x.WellBuilt → y.WellBuilt → x.sameTree y = true → x = y
  | .constant u, y, hx, hy, same => by
    cases y with
    | constant v => exact congrArg constant (eq_of_sameNumber hx.constant hy.constant same)
    | _ => simp [sameTree] at same
  | .argument name, y, _, _, same => by
    cases y with
    | argument other => exact congrArg argument (by simpa [sameTree] using same)
    | _ => simp [sameTree] at same
  | .unary op x, y, hx, hy, same => by
    cases y with
    | unary op' x' =>
      obtain ⟨operator, operand⟩ : op = op' ∧ x.sameTree x' = true := by
        simpa [sameTree] using same
      rw [operator, eq_of_sameTree x x' hx.unary hy.unary operand]
    | _ => simp [sameTree] at same
  | .binary op l r, y, hx, hy, same => by
    cases y with
    | binary op' l' r' =>
      obtain ⟨⟨operator, left⟩, right⟩ :
          (op = op' ∧ l.sameTree l' = true) ∧ r.sameTree r' = true := by
        simpa [sameTree] using same
      rw [operator, eq_of_sameTree l l' hx.binary.1 hy.binary.1 left,
        eq_of_sameTree r r' hx.binary.2 hy.binary.2 right]
    | _ => simp [sameTree] at same
  | .conditional c t e, y, hx, hy, same => by
    cases y with
    | conditional c' t' e' =>
      obtain ⟨⟨condition, yes⟩, no⟩ :
          (c.sameTree c' = true ∧ t.sameTree t' = true) ∧ e.sameTree e' = true := by
        simpa [sameTree] using same
      obtain ⟨⟨hc, ht⟩, he⟩ := hx.conditional
      obtain ⟨⟨hc', ht'⟩, he'⟩ := hy.conditional
      rw [eq_of_sameTree c c' hc hc' condition, eq_of_sameTree t t' ht ht' yes,
        eq_of_sameTree e e' he he' no]
    | _ => simp [sameTree] at same
  | .array xs, y, hx, hy, same => by
    cases y with
    | array ys => rw [eq_of_sameTrees xs ys hx.array hy.array (by simpa [sameTree] using same)]
    | _ => simp [sameTree] at same
  | .index a p, y, hx, hy, same => by
    cases y with
    | index a' p' =>
      obtain ⟨items, position⟩ : a.sameTree a' = true ∧ p.sameTree p' = true := by
        simpa [sameTree] using same
      rw [eq_of_sameTree a a' hx.index.1 hy.index.1 items,
        eq_of_sameTree p p' hx.index.2 hy.index.2 position]
    | _ => simp [sameTree] at same
  | .call f xs, y, hx, hy, same => by
    cases y with
    | call g ys =>
      obtain ⟨function, arguments⟩ : f = g ∧ sameTrees xs ys = true := by
        simpa [sameTree] using same
      rw [function, eq_of_sameTrees xs ys hx.call hy.call arguments]
    | _ => simp [sameTree] at same

theorem eq_of_sameTrees : ∀ xs ys : List Expr, (∀ x ∈ xs, x.WellBuilt) →
    (∀ y ∈ ys, y.WellBuilt) → sameTrees xs ys = true → xs = ys
  | [], ys, _, _, same => by
    cases ys with
    | nil => rfl
    | cons y ys => simp [sameTrees] at same
  | x :: xs, ys, hx, hy, same => by
    cases ys with
    | nil => simp [sameTrees] at same
    | cons y ys =>
      obtain ⟨first, others⟩ : x.sameTree y = true ∧ sameTrees xs ys = true := by
        simpa [sameTrees] using same
      obtain ⟨hx, hxs⟩ := List.forall_mem_cons.mp hx
      obtain ⟨hy, hys⟩ := List.forall_mem_cons.mp hy
      rw [eq_of_sameTree x y hx hy first, eq_of_sameTrees xs ys hxs hys others]

end

end Expr

/-! ### Formulas -/

theorem wellBuilt_of_parse {text : String} {formula : Formula}
    (parsed : Formula.parse text = .ok formula) : formula.root.WellBuilt := by
  unfold Formula.parse at parsed
  split at parsed
  · next root accepted =>
    cases parsed
    exact Expr.wellBuilt_of_derives (Expr.derives_of_read accepted)
  · cases parsed

/-- A formula has only nodes that reading builds and is the same as itself; one that does not
draw gives the text of every formula with the same tree. -/
theorem image_of_parse {text : String} {formula : Formula}
    (parsed : Formula.parse text = .ok formula) :
    (∀ node ∈ formula.root.nodes, node.Built) ∧ formula.sameFormula formula = true ∧
    ∀ text' other, Formula.parse text' = .ok other →
      formula.root.sameTree other.root = true → formula.isDeterministic = true →
      ∀ bindings, ∃ replacement : String,
        (do (← formula.evaluate bindings).render) = (pure replacement : Sampled String) ∧
        (do (← other.evaluate bindings).render) = (pure replacement : Sampled String) := by
  have built := wellBuilt_of_parse parsed
  refine ⟨built, ?_, ?_⟩
  · rw [Formula.sameFormula, Expr.sameTree_self _ built, beq_self_eq_true, Bool.and_self]
  · intro text' other parsed' same deterministic bindings
    have equal := Expr.eq_of_sameTree _ _ built (wellBuilt_of_parse parsed') same
    have calm : formula.root.callsRandom = false := by
      simpa [Formula.isDeterministic] using deterministic
    obtain ⟨value, evaluated, agrees⟩ := Expr.evaluate_agrees bindings formula.root calm
    have rendered : (do (← formula.evaluate bindings).render) =
        (pure (formula.root.eager bindings).text : Sampled String) := by
      rw [Formula.evaluate, evaluated, pure_bind, agrees.render]
    refine ⟨_, rendered, ?_⟩
    rw [Formula.evaluate, ← equal]
    exact rendered

/-- An array with a call in it and a position, from a text with blanks and a parenthesis. -/
def indexedCall : Formula where
  source := "[x, pow((i), x)][ i ]"
  root := .index (.array [.argument "x", .call .pow [.argument "i", .argument "x"]]) (.argument "i")

theorem image_of_parse_indexedCall :
    Formula.parse "[x, pow((i), x)][ i ]" = .ok indexedCall ∧
    (∀ node ∈ indexedCall.root.nodes, node.Built) ∧
    indexedCall.sameFormula indexedCall = true ∧
    ∀ bindings, ∃ replacement : String,
      (do (← indexedCall.evaluate bindings).render) = (pure replacement : Sampled String) := by
  have parsed : Formula.parse "[x, pow((i), x)][ i ]" = .ok indexedCall := by cbv
  obtain ⟨built, reflexive, texts⟩ := image_of_parse parsed
  refine ⟨parsed, built, reflexive, fun bindings => ?_⟩
  have same : indexedCall.root.sameTree indexedCall.root = true := by cbv
  obtain ⟨replacement, rendered, -⟩ := texts _ _ parsed same rfl bindings
  exact ⟨replacement, rendered⟩

end SelectionFormula
