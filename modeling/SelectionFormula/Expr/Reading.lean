import SelectionFormula.Text.Blank
import SelectionFormula.Expr.Form

/-!
Reading an expression from its text.

A text is trimmed, its brackets are checked, and the operator levels are tried
from the loosest to the tightest; the first level that applies answers, and a
text to which none applies is an operand. Binary levels split at the last
occurrence, so equal operators group to the left.
-/

namespace SelectionFormula

/-- A level of the operator table. -/
inductive Level where
  | conditional
  | binary (op : BinaryOperator)
  | unary (op : UnaryOperator)
  deriving DecidableEq, Repr

namespace Level

/-- The operator table, loosest level first. -/
def table : List Level :=
  [conditional, binary .or, binary .and, binary .bitOr, binary .bitXor, binary .bitAnd,
   binary .equal, binary .atMost, binary .atLeast, binary .below, binary .above,
   binary .shiftLeft, binary .shiftRight, binary .shiftRightUnsigned, binary .plus, binary .minus,
   binary .times, binary .divide, binary .remainder, binary .power, unary .complement, unary .not]

/-- The answer of a level, if it applies. -/
def answer? {text : List Char} (read : Form.Reader text) : Level → Option (Except Stop Expr)
  | conditional => Form.conditional? read
  | binary op => Form.binary? op read
  | unary op => Form.unary? op read

end Level

namespace Expr

/-- Read a text that has no blanks around it. -/
def readTrimmed {text : List Char} (read : Form.Reader text) : Except Stop Expr :=
  match Text.firstFault? text with
  | some offset => reject .unbalancedParentheses offset
  | none =>
    if text = [] then reject .emptyInput 0
    else
      match Level.table.findSome? (Level.answer? read) with
      | some answer => answer
      | none => Form.operand read

/-- Read an expression. Offsets are byte offsets into the text as it is. -/
def read (text : List Char) : Except Stop Expr :=
  let leading := Text.byteLength (text.takeWhile Text.isBlank)
  (readTrimmed fun part : Text.Shorter (Text.trim text) => read part.val).mapError
    (·.shifted leading)
termination_by text.length
decreasing_by
  exact Nat.lt_of_lt_of_le part.property (Text.length_trim_le text)

end Expr

end SelectionFormula
