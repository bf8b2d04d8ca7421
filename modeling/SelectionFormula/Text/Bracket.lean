import SelectionFormula.Text.Bytes

/-!
Round and square brackets, and the first fault in how they nest.

`firstFault?` reads a text once with the brackets still open. A closer that does
not match the innermost open bracket is the fault; a text that ends with
brackets open is at fault at the outermost of them.
-/

namespace SelectionFormula.Text

inductive Bracket where
  | round
  | square
  deriving DecidableEq, Repr

/-- A bracket character: which bracket, and which side of it. -/
inductive BracketMark where
  | opening (bracket : Bracket)
  | closing (bracket : Bracket)
  deriving DecidableEq, Repr

/-- The bracket that a character is, if it is one. -/
def BracketMark.ofChar? : Char → Option BracketMark
  | '(' => some (.opening .round)
  | '[' => some (.opening .square)
  | ')' => some (.closing .round)
  | ']' => some (.closing .square)
  | _ => none

/-- How a character changes the number of open brackets. -/
def nesting (c : Char) : Int :=
  match BracketMark.ofChar? c with
  | some (.opening _) => 1
  | some (.closing _) => -1
  | none => 0

/-- The fault in the rest of a text from an offset on, where `pending` holds the
brackets open before it, innermost first, with their offsets. -/
def faultFrom? : List (Bracket × Nat) → Nat → List Char → Option Nat
  | pending, _, [] => pending.getLast?.map (·.2)
  | pending, offset, c :: text =>
    match BracketMark.ofChar? c with
    | none => faultFrom? pending (offset + c.utf8Size) text
    | some (.opening bracket) =>
      faultFrom? ((bracket, offset) :: pending) (offset + c.utf8Size) text
    | some (.closing bracket) =>
      match pending with
      | (innermost, _) :: outer =>
        if innermost = bracket then faultFrom? outer (offset + c.utf8Size) text else some offset
      | [] => some offset

/-- The byte offset of the first fault in the nesting of brackets. -/
def firstFault? (text : List Char) : Option Nat :=
  faultFrom? [] 0 text

end SelectionFormula.Text
