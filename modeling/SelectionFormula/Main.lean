import SelectionFormula.CommandLine

/-!
The program: arguments, standard input and a seed go to `CommandLine.Command.run`,
and what it answers is written out.
-/

open SelectionFormula in
def main (arguments : List String) : IO UInt32 := do
  match CommandLine.Command.ofArguments? arguments with
  | none =>
    IO.eprintln "usage: (index | increment | decrement | map FORMULA | check FORMULA)"
    return 2
  | some command =>
    let input ← if command.readsInput then (← IO.getStdin).readToEnd else pure ""
    let seed := (← IO.monoNanosNow).toUInt64
    let (outcome, _) := (command.run input).run (Draws.seeded seed)
    (← IO.getStdout).putStr outcome.output
    (← IO.getStderr).putStr outcome.errors
    return outcome.exitCode.toUInt32
