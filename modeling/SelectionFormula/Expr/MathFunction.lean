/-!
The functions a formula may call: a closed table of names and argument counts.

Names are case-sensitive and each belongs to one function (`ofName?_name`).
-/

namespace SelectionFormula

/-- How many arguments a function takes. -/
inductive Arity where
  | exactly (count : Nat)
  | any
  deriving DecidableEq, Repr

def Arity.accepts : Arity → Nat → Bool
  | exactly n, count => n == count
  | any, _ => true

/-- The functions a formula may call. -/
inductive MathFunction where
  | random
  | abs
  | acos
  | acosh
  | asin
  | asinh
  | atan
  | atanh
  | cbrt
  | ceil
  | clz32
  | cos
  | cosh
  | exp
  | expm1
  | floor
  | fround
  | log
  | log1p
  | log10
  | log2
  | round
  | sign
  | sin
  | sinh
  | sqrt
  | tan
  | tanh
  | trunc
  | atan2
  | imul
  | pow
  | hypot
  | max
  | min
  deriving DecidableEq, Repr

namespace MathFunction

def all : List MathFunction :=
  [random, abs, acos, acosh, asin, asinh, atan, atanh, cbrt, ceil, clz32, cos, cosh, exp, expm1,
   floor, fround, log, log1p, log10, log2, round, sign, sin, sinh, sqrt, tan, tanh, trunc, atan2,
   imul, pow, hypot, max, min]

theorem mem_all (function : MathFunction) : function ∈ all := by
  cases function <;> decide

/-- The name by which a formula calls a function. -/
def name : MathFunction → String
  | random => "random"
  | abs => "abs"
  | acos => "acos"
  | acosh => "acosh"
  | asin => "asin"
  | asinh => "asinh"
  | atan => "atan"
  | atanh => "atanh"
  | cbrt => "cbrt"
  | ceil => "ceil"
  | clz32 => "clz32"
  | cos => "cos"
  | cosh => "cosh"
  | exp => "exp"
  | expm1 => "expm1"
  | floor => "floor"
  | fround => "fround"
  | log => "log"
  | log1p => "log1p"
  | log10 => "log10"
  | log2 => "log2"
  | round => "round"
  | sign => "sign"
  | sin => "sin"
  | sinh => "sinh"
  | sqrt => "sqrt"
  | tan => "tan"
  | tanh => "tanh"
  | trunc => "trunc"
  | atan2 => "atan2"
  | imul => "imul"
  | pow => "pow"
  | hypot => "hypot"
  | max => "max"
  | min => "min"

/-- The function of a name. -/
def ofName? (name : String) : Option MathFunction :=
  all.find? (·.name == name)

theorem ofName?_name (function : MathFunction) : ofName? function.name = some function := by
  cases function <;> decide

def arity : MathFunction → Arity
  | random => .exactly 0
  | atan2 | imul | pow => .exactly 2
  | hypot | max | min => .any
  | _ => .exactly 1

end MathFunction

end SelectionFormula
