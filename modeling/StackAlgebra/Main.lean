import StackAlgebra.CommandLine.Session

/-!
# The program

Reads the input where the command line needs it, and writes down what `CommandLine.run` answers.
-/

namespace StackAlgebra

/-- All that is left of a stream, added to what was read of it. -/
partial def readRest (stream : IO.FS.Stream) (text : String) : IO String := do
  let line ← stream.getLine
  if line.isEmpty then return text else readRest stream (text ++ line)

/-- The input, unless the command line brings its own lines. -/
def readInput (arguments : List String) : IO String := do
  match CommandLine.Request.read arguments with
  | .ok r => if r.lines.isSome then return "" else readRest (← IO.getStdin) ""
  | .error _ => return ""

end StackAlgebra

/-- The program. -/
def main (arguments : List String) : IO UInt32 := do
  let input ← StackAlgebra.readInput arguments
  match StackAlgebra.CommandLine.run arguments input with
  | .ok transcript =>
    (← IO.getStderr).putStr transcript.errors
    (← IO.getStdout).putStr transcript.output
    return UInt32.ofNat transcript.status
  | .error e =>
    (← IO.getStderr).putStr (e.message ++ "\n")
    return 1
