import Cypher.Parse
import Cypher.Tree.Dump

/-!
# The command

The command takes one query. For an accepted one it prints the canonical
text and the tree in full; for any other it prints what is wrong to the
error output and fails.
-/

namespace Cypher.Command

/-- What a run of the command prints, and its exit code. -/
structure Run where
  exitCode : UInt8
  output : String := ""
  errors : String := ""

/-- What is printed for any number of arguments but one. -/
def usage : String := "usage: cypher-parse <query>\n"

/-- One run of the command with these arguments. -/
def run (arguments : List String) : Run :=
  match arguments with
  | [text] =>
    match parse text with
    | .ok query =>
      { exitCode := 0, output := query.text ++ "\n" ++ query.dump.text ++ "\n" }
    | .error rejection =>
      { exitCode := 1
        errors := String.join (rejection.diagnostics.map fun d => d.text ++ "\n") }
  | _ => { exitCode := 2, errors := usage }

end Cypher.Command
