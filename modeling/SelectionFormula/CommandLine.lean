import SelectionFormula.Selection

/-!
The command line: a selection command over the lines of standard input.

`run` is the whole program as a function of its arguments and its input.
-/

namespace SelectionFormula.CommandLine

inductive Command where
  | index
  | increment
  | decrement
  | map (formula : String)
  | check (formula : String)
  deriving DecidableEq, Repr

/-- The command that the arguments name. -/
def Command.ofArguments? : List String → Option Command
  | ["index"] => some index
  | ["increment"] => some increment
  | ["decrement"] => some decrement
  | ["map", formula] => some (map formula)
  | ["check", formula] => some (check formula)
  | _ => none

/-- What a run leaves behind. -/
structure Outcome where
  exitCode : Nat
  output : String
  errors : String
  deriving DecidableEq, Repr

/-! ### Lines -/

/-- A line's text without the carriage return before its line feed. -/
def dropReturn (line : List Char) : List Char :=
  match line.getLast? with
  | some '\r' => line.dropLast
  | _ => line

/-- The lines of an input, where `line` holds what is read of the present one,
reversed. A last line needs no line feed, and then keeps a carriage return. -/
def linesFrom (line : List Char) : List Char → List (List Char)
  | [] => if line = [] then [] else [line.reverse]
  | '\n' :: text => dropReturn line.reverse :: linesFrom [] text
  | c :: text => linesFrom (c :: line) text

/-- The lines of an input. -/
def lines (input : String) : List String :=
  (linesFrom [] input.toList).map String.ofList

/-- Each text on a line of its own. -/
def unlines (texts : List String) : String :=
  String.join (texts.map (· ++ "\n"))

/-! ### Commands -/

/-- A successful run's outcome. -/
def Outcome.success (output : String) : Outcome :=
  ⟨0, output, ""⟩

/-- A rejected formula's outcome: the message, the formula, and a mark under the
column at fault. -/
def Outcome.failure (formula : String) (rejection : Rejection) : Outcome :=
  let mark := String.ofList (List.replicate rejection.location ' ') ++ "^"
  ⟨1, "", unlines ["Error: " ++ rejection.message, "  " ++ formula, "  " ++ mark]⟩

/-- Whether a command reads its input. -/
def Command.readsInput : Command → Bool
  | check _ => false
  | _ => true

/-- Run a command on the text of its input. -/
def Command.run (input : String) : Command → Sampled Outcome
  | index => pure (.success (unlines (Selection.index (lines input).length)))
  | increment => pure (.success (unlines (Selection.increment (lines input))))
  | decrement => pure (.success (unlines (Selection.decrement (lines input))))
  | map formula =>
    match Selection.map formula (lines input) with
    | .ok replacements => return .success (unlines (← replacements))
    | .error rejection => pure (.failure formula rejection)
  | check formula =>
    match Formula.fault? formula with
    | none => pure (.success "ok\n")
    | some rejection => pure (.failure formula rejection)

end SelectionFormula.CommandLine
