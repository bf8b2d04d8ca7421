import SelectionFormula.Binary64.Word
import SelectionFormula.Elementary.Power
import SelectionFormula.Expr.Operator

/-!
What the operators do to numbers.

Bitwise operators act on 32-bit words. Comparisons answer one or zero. The logical
operators answer one of their operands; `!` has no value.
-/

namespace SelectionFormula

/-- A number that counts as true: neither zero nor not-a-number. -/
def Binary64.isTruthy (x : Binary64) : Bool :=
  !x.isZero && !x.isNaN

/-- One for true, zero for false. -/
def Binary64.ofBool (b : Bool) : Binary64 :=
  if b then one else zero false

/-- The value of an operator in front of a number, if it has one. -/
def UnaryOperator.value? : UnaryOperator → Binary64 → Option Binary64
  | negate, x => some x.neg
  | complement, x => some (.ofSigned (~~~x.toWord))
  | not, _ => none

open Binary64 in
/-- The value of an operator between two numbers. -/
def BinaryOperator.value : BinaryOperator → Binary64 → Binary64 → Binary64
  | plus, x, y => x.add y
  | minus, x, y => x.sub y
  | times, x, y => x.mul y
  | divide, x, y => x.div y
  | power, x, y => x.pow y
  | remainder, x, y => x.rem y
  | bitOr, x, y => ofSigned (x.toWord ||| y.toWord)
  | bitAnd, x, y => ofSigned (x.toWord &&& y.toWord)
  | bitXor, x, y => ofSigned (x.toWord ^^^ y.toWord)
  | or, x, y => if x.isTruthy then x else y
  | and, x, y => if x.isTruthy then y else x
  | shiftLeft, x, y => ofSigned (x.toWord <<< y.toWord.shiftCount)
  | shiftRight, x, y => ofSigned (x.toWord.sshiftRight y.toWord.shiftCount)
  | shiftRightUnsigned, x, y => ofUnsigned (x.toWord >>> y.toWord.shiftCount)
  | equal, x, y => ofBool (x.sameNumber y)
  | atMost, x, y => ofBool (x.le y)
  | atLeast, x, y => ofBool (y.le x)
  | below, x, y => ofBool (x.lt y)
  | above, x, y => ofBool (y.lt x)

end SelectionFormula
