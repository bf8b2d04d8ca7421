/-!
Why and where a formula text is rejected.

The causes are a closed set. Each has an English text, a key under which a host
looks up its own text, and a name. The location is an offset into the text: in
bytes while a text is being read, in characters once the whole text is rejected.
-/

namespace SelectionFormula

/-- Why a formula text is rejected. -/
inductive Cause where
  | emptyInput
  | unbalancedParentheses
  | unparsableToken
  | invalidFunctionSyntax
  | unknownFunction
  | wrongArgumentCount
  deriving DecidableEq, Repr

namespace Cause

def all : List Cause :=
  [emptyInput, unbalancedParentheses, unparsableToken, invalidFunctionSyntax, unknownFunction,
   wrongArgumentCount]

theorem mem_all (cause : Cause) : cause ∈ all := by
  cases cause <;> decide

/-- The English text of a cause. -/
def text : Cause → String
  | emptyInput => "expression is empty"
  | unbalancedParentheses => "parentheses are unbalanced"
  | unparsableToken => "cannot parse token"
  | invalidFunctionSyntax => "invalid function call syntax"
  | unknownFunction => "unknown function"
  | wrongArgumentCount => "wrong number of function arguments"

/-- The key under which a host finds its own text for a cause. -/
def key : Cause → String
  | emptyInput => "map.error.empty"
  | unbalancedParentheses => "map.error.parentheses"
  | unparsableToken => "map.error.unparsable"
  | invalidFunctionSyntax => "map.error.function.invalid"
  | unknownFunction => "map.error.function.unknown"
  | wrongArgumentCount => "map.error.function.argument"

/-- The name of a cause in stored rejections. -/
def name : Cause → String
  | emptyInput => "empty_input"
  | unbalancedParentheses => "unbalanced_parentheses"
  | unparsableToken => "unparsable_token"
  | invalidFunctionSyntax => "invalid_function_syntax"
  | unknownFunction => "unknown_function"
  | wrongArgumentCount => "wrong_argument_count"

/-- The cause of a name. -/
def ofName? (name : String) : Option Cause :=
  all.find? (·.name == name)

theorem ofName?_name (cause : Cause) : ofName? cause.name = some cause := by
  cases cause <;> decide

end Cause

/-- A cause and the offset at which it was found. -/
structure Rejection where
  cause : Cause
  location : Nat
  deriving DecidableEq, Repr

namespace Rejection

/-- The same rejection seen from a text that has more in front. -/
def shifted (rejection : Rejection) (offset : Nat) : Rejection :=
  { rejection with location := rejection.location + offset }

/-- The place for a reader, counted from one. -/
def column (rejection : Rejection) : Nat :=
  rejection.location + 1

/-- The English message with its column. -/
def message (rejection : Rejection) : String :=
  rejection.cause.text ++ " (column " ++ toString rejection.column ++ ")"

@[simp] theorem shifted_zero (rejection : Rejection) : rejection.shifted 0 = rejection := rfl

theorem shifted_shifted (rejection : Rejection) (inner outer : Nat) :
    (rejection.shifted inner).shifted outer = rejection.shifted (inner + outer) := by
  simp [shifted, Nat.add_assoc]

end Rejection

end SelectionFormula
