import Cypher.Command

/-!
# The program

The command at the edge of the process. What is printed, where, and how
the process ends are all decided by `Cypher.Command.run`.
-/

/-- Runs the command on the arguments of the process. -/
def main (arguments : List String) : IO UInt32 := do
  let run := Cypher.Command.run arguments
  IO.print run.output
  IO.eprint run.errors
  return run.exitCode.toUInt32
