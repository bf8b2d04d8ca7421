import SelectionFormula.Rejection
import SelectionFormula.Text.TopLevel
import SelectionFormula.Decimal.Literal
import SelectionFormula.Expr.Basic
import SelectionFormula.Expr.Name

/-!
The forms of an expression's text.

Each form says how a text without blanks around it splits into parts, and builds
its tree from theirs. How the parts are read is an argument, so no form is
recursive: a part is always shorter than the text (`Text.Shorter`). A form that
does not apply answers `none`; a form that applies answers with a tree or with
the `Stop` that ends the reading.

Offsets are byte offsets into the form's text: what a part is rejected for is
reported at the part's place (`readPart`).
-/

namespace SelectionFormula

/-- Why reading a text stops. -/
inductive Stop where
  /-- The text is no formula. -/
  | rejected (rejection : Rejection)
  /-- A form asked for a part that does not begin and end between characters of its text. -/
  | outOfText
  deriving DecidableEq, Repr

/-- The same stop seen from a text that has more in front. -/
def Stop.shifted : Stop → Nat → Stop
  | rejected rejection, offset => rejected (rejection.shifted offset)
  | outOfText, _ => outOfText

@[simp] theorem Stop.shifted_zero (stop : Stop) : stop.shifted 0 = stop := by
  cases stop <;> rfl

theorem Stop.shifted_shifted (stop : Stop) (inner outer : Nat) :
    (stop.shifted inner).shifted outer = stop.shifted (inner + outer) := by
  cases stop <;> simp [shifted, Rejection.shifted_shifted]

/-- Reject the text being read at an offset. -/
def reject {α : Type} (cause : Cause) (offset : Nat) : Except Stop α :=
  .error (.rejected ⟨cause, offset⟩)

namespace Form

open Text

/-- A way to read what is shorter than a text. -/
abbrev Reader (text : List Char) :=
  Shorter text → Except Stop Expr

variable {text : List Char}

/-- Read the part between two offsets. -/
def readPart (read : Reader text) (start finish : Nat) : Except Stop Expr :=
  match properPart? text start finish with
  | none => .error .outOfText
  | some part => (read part).mapError (·.shifted start)

/-- Read the parts between an offset and each of the next, leaving out the one
character at each of them. -/
def readBetween (read : Reader text) : Nat → List Nat → Except Stop (List Expr)
  | _, [] => .ok []
  | start, finish :: later => do
    let item ← readPart read start finish
    let items ← readBetween read (finish + 1) later
    return item :: items

/-- Read the items that commas separate between two offsets. Nothing at all is
the empty list; a blank item is a fault like any other. -/
def readItems (read : Reader text) (start finish : Nat) : Except Stop (List Expr) :=
  match part? text start finish with
  | none => .error .outOfText
  | some [] => .ok []
  | some items => readBetween read start ((occurrences [','] items).map (start + ·) ++ [finish])

/-! ### Operators -/

/-- `condition ? yes : no`, split at the last question mark and the last colon.
One without the other, or in the wrong order, is a fault of the whole text. -/
def conditional? (read : Reader text) : Option (Except Stop Expr) :=
  match lastOccurrence? ['?'] text, lastOccurrence? [':'] text with
  | none, none => none
  | some question, some colon =>
    if question < colon then
      some do
        let condition ← readPart read 0 question
        let yes ← readPart read (question + 1) colon
        let no ← readPart read (colon + 1) (byteLength text)
        return .conditional condition yes no
    else some (reject .unparsableToken 0)
  | _, _ => some (reject .unparsableToken 0)

/-- Whether an operator gives way when one of its operands is rejected. The last
`*` of a text may be half of a `**`, so `*` does. -/
def givesWay : BinaryOperator → Bool
  | .times => true
  | _ => false

/-- Two operands around the last occurrence of an operator. -/
def binary? (op : BinaryOperator) (read : Reader text) : Option (Except Stop Expr) :=
  match lastOccurrence? op.symbol.toList text with
  | none => none
  | some offset =>
    let tree : Except Stop Expr := do
      let left ← readPart read 0 offset
      let right ← readPart read (offset + byteLength op.symbol.toList) (byteLength text)
      return .binary op left right
    match tree with
    | .error (.rejected _) => if givesWay op then none else some tree
    | _ => some tree

/-- An operator in front of one operand. -/
def unary? (op : UnaryOperator) (read : Reader text) : Option (Except Stop Expr) :=
  if op.symbol.toList.isPrefixOf text then
    some ((readPart read (byteLength op.symbol.toList) (byteLength text)).map (.unary op))
  else none

/-! ### Operands -/

/-- A text that ends with a square bracket: the items of an array when that bracket
was opened at the start, an array and a position otherwise. -/
def bracketed (read : Reader text) : Except Stop Expr :=
  let close := byteLength text - 1
  match lastOccurrence? ['['] text with
  | none => reject .unbalancedParentheses close
  | some 0 => (readItems read 1 close).map .array
  | some opening => do
    let items ← readPart read 0 opening
    let position ← readPart read (opening + 1) close
    return .index items position

/-- A function's name and its arguments in parentheses. The arguments are read
before the name is looked up, and counted last. -/
def call (read : Reader text) : Except Stop Expr :=
  let name := text.takeWhile (· != '(')
  if text.contains '(' && isFunctionName name then do
    let arguments ← readItems read (byteLength name + 1) (byteLength text - 1)
    match MathFunction.ofName? (String.ofList name) with
    | none => reject .unknownFunction 0
    | some function =>
      if function.arity.accepts arguments.length then return .call function arguments
      else reject .wrongArgumentCount 0
  else reject .invalidFunctionSyntax 0

/-- A name or a literal. -/
def atom (text : List Char) : Except Stop Expr :=
  if isArgumentName text then .ok (.argument (String.ofList text))
  else
    match Literal.number? text with
    | some value => .ok (.constant value)
    | none => reject .unparsableToken 0

/-- A text without an operator outside brackets, told apart by its first and last
characters. -/
def operand (read : Reader text) : Except Stop Expr :=
  if text.head? = some '(' ∧ text.getLast? = some ')' then
    readPart read 1 (byteLength text - 1)
  else if text.getLast? = some ']' then bracketed read
  else if text.getLast? = some ')' then call read
  else atom text

end Form

end SelectionFormula
