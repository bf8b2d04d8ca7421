/-!
The operators of the formula language and their symbols.
-/

namespace SelectionFormula

/-- Operators in front of one operand. -/
inductive UnaryOperator where
  | negate
  | complement
  | not
  deriving DecidableEq, Repr

def UnaryOperator.symbol : UnaryOperator → String
  | negate => "-"
  | complement => "~"
  | not => "!"

/-- Operators between two operands. -/
inductive BinaryOperator where
  | plus
  | minus
  | times
  | divide
  | power
  | remainder
  | bitOr
  | bitAnd
  | bitXor
  | or
  | and
  | shiftLeft
  | shiftRight
  | shiftRightUnsigned
  | equal
  | atMost
  | atLeast
  | below
  | above
  deriving DecidableEq, Repr

def BinaryOperator.symbol : BinaryOperator → String
  | plus => "+"
  | minus => "-"
  | times => "*"
  | divide => "/"
  | power => "**"
  | remainder => "%"
  | bitOr => "|"
  | bitAnd => "&"
  | bitXor => "^"
  | or => "||"
  | and => "&&"
  | shiftLeft => "<<"
  | shiftRight => ">>"
  | shiftRightUnsigned => ">>>"
  | equal => "=="
  | atMost => "<="
  | atLeast => ">="
  | below => "<"
  | above => ">"

def UnaryOperator.all : List UnaryOperator := [negate, complement, not]

def BinaryOperator.all : List BinaryOperator :=
  [plus, minus, times, divide, power, remainder, bitOr, bitAnd, bitXor, or, and, shiftLeft, shiftRight,
   shiftRightUnsigned, equal, atMost, atLeast, below, above]

/-- The operator of a symbol. -/
def UnaryOperator.ofSymbol? (symbol : String) : Option UnaryOperator :=
  all.find? (·.symbol == symbol)

/-- The operator of a symbol. -/
def BinaryOperator.ofSymbol? (symbol : String) : Option BinaryOperator :=
  all.find? (·.symbol == symbol)

theorem UnaryOperator.ofSymbol?_symbol (op : UnaryOperator) : ofSymbol? op.symbol = some op := by
  cases op <;> decide

theorem BinaryOperator.ofSymbol?_symbol (op : BinaryOperator) : ofSymbol? op.symbol = some op := by
  cases op <;> decide

end SelectionFormula
