import CosmeticFilter.Command.Run

/-!
# The program

Reads the file that a command asks for, and writes what the command comes to.
-/

namespace CosmeticFilter

/-- The text of a file, if it can be read. -/
def readText? (path : Text) : IO (Option Text) := do
  try
    let content ← IO.FS.readFile (String.ofList path)
    return some content.toList
  catch _ => return none

end CosmeticFilter

open CosmeticFilter

/-- Runs the command that the arguments stand for. -/
def main (arguments : List String) : IO UInt32 := do
  match Command.ofArguments? (arguments.map String.toList) with
  | none => write Command.usage
  | some c =>
    match c.file? with
    | none => write (c.run none)
    | some path => write (c.run (← readText? path))
where
  /-- Writes an output and returns its exit code. -/
  write (o : Output) : IO UInt32 := do
    (← IO.getStdout).putStr (String.ofList o.stdout)
    (← IO.getStderr).putStr (String.ofList o.stderr)
    return o.code.toUInt32
