import SelectionFormula.Expr.Basic
import SelectionFormula.Decimal.Layout

/-!
The text of an expression tree, with every operation in parentheses.
-/

namespace SelectionFormula.Expr

mutual

/-- The characters of a tree. -/
def chars : Expr → List Char
  | constant value => value.chars
  | argument name => name.toList
  | unary op operand => '(' :: op.symbol.toList ++ operand.chars ++ [')']
  | binary op left right =>
    '(' :: left.chars ++ ' ' :: op.symbol.toList ++ ' ' :: right.chars ++ [')']
  | conditional condition yes no =>
    '(' :: condition.chars ++ " ? ".toList ++ yes.chars ++ " : ".toList ++ no.chars ++ [')']
  | array elements => '[' :: itemChars elements ++ [']']
  | index items position => items.chars ++ '[' :: position.chars ++ [']']
  | call function arguments => function.name.toList ++ '(' :: itemChars arguments ++ [')']

/-- The characters of the items of a list, a comma and a space between two. -/
def itemChars : List Expr → List Char
  | [] => []
  | e :: es => e.chars ++ furtherChars es

/-- The characters of the items behind the first one. -/
def furtherChars : List Expr → List Char
  | [] => []
  | e :: es => ',' :: ' ' :: e.chars ++ furtherChars es

end

/-- The text of a tree. -/
def written (e : Expr) : String :=
  String.ofList e.chars

end SelectionFormula.Expr
