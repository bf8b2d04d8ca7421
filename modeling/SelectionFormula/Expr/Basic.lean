import SelectionFormula.Binary64.Basic
import SelectionFormula.Expr.Operator
import SelectionFormula.Expr.MathFunction

/-!
Expression trees.

`callsRandom` finds a call of the random source anywhere in a tree, `mentions` a
name. `sameTree` compares two trees with numbers compared as numbers, so a tree
with a not-a-number constant differs from itself.
-/

namespace SelectionFormula

inductive Expr where
  | constant (value : Binary64)
  | argument (name : String)
  | unary (op : UnaryOperator) (operand : Expr)
  | binary (op : BinaryOperator) (left right : Expr)
  | conditional (condition yes no : Expr)
  | array (elements : List Expr)
  | index (items position : Expr)
  | call (function : MathFunction) (arguments : List Expr)

namespace Expr

instance : Inhabited Expr := ⟨array []⟩

mutual

/-- Whether evaluation may draw from the random source. -/
def callsRandom : Expr → Bool
  | constant _ | argument _ => false
  | unary _ operand => operand.callsRandom
  | binary _ left right => left.callsRandom || right.callsRandom
  | conditional condition yes no => condition.callsRandom || yes.callsRandom || no.callsRandom
  | array elements => anyCallsRandom elements
  | index items position => items.callsRandom || position.callsRandom
  | call function arguments => function == .random || anyCallsRandom arguments

/-- Whether one of several trees may draw. -/
def anyCallsRandom : List Expr → Bool
  | [] => false
  | e :: es => e.callsRandom || anyCallsRandom es

end

theorem anyCallsRandom_eq_any (es : List Expr) : anyCallsRandom es = es.any callsRandom := by
  induction es with
  | nil => rfl
  | cons e es ih => simp [anyCallsRandom, ih]

mutual

/-- Whether a tree looks a name up. -/
def mentions (name : String) : Expr → Bool
  | constant _ => false
  | argument other => other == name
  | unary _ operand => operand.mentions name
  | binary _ left right => left.mentions name || right.mentions name
  | conditional condition yes no => condition.mentions name || yes.mentions name || no.mentions name
  | array elements => anyMentions name elements
  | index items position => items.mentions name || position.mentions name
  | call _ arguments => anyMentions name arguments

/-- Whether one of several trees looks a name up. -/
def anyMentions (name : String) : List Expr → Bool
  | [] => false
  | e :: es => e.mentions name || anyMentions name es

end

mutual

/-- Equality of trees with constants compared as numbers. -/
def sameTree : Expr → Expr → Bool
  | constant x, constant y => x.sameNumber y
  | argument x, argument y => x == y
  | unary op x, unary op' y => op == op' && x.sameTree y
  | binary op x y, binary op' x' y' => op == op' && x.sameTree x' && y.sameTree y'
  | conditional c x y, conditional c' x' y' => c.sameTree c' && x.sameTree x' && y.sameTree y'
  | array xs, array ys => sameTrees xs ys
  | index x y, index x' y' => x.sameTree x' && y.sameTree y'
  | call f xs, call g ys => f == g && sameTrees xs ys
  | _, _ => false

/-- Equality of lists of trees, place by place. -/
def sameTrees : List Expr → List Expr → Bool
  | [], [] => true
  | x :: xs, y :: ys => x.sameTree y && sameTrees xs ys
  | _, _ => false

end

end Expr

end SelectionFormula
