import ElmScope.Bundle
import ElmScope.CommandLine
import ElmScope.Text.Lines
/-!
# The program

Reads a bundle from standard input and carries out the command that the arguments ask for.
-/
namespace ElmScope

/-- The lines of a stream up to its end, without their breaks. -/
partial def readLines (input : IO.FS.Stream) (lines : Array String) : IO (Array String) := do
  let line ← input.getLine
  if line.isEmpty then return lines
  readLines input (lines.push (.ofList (Text.trimBreak line.toList)))

/-- Write an outcome and answer its exit code. -/
def Outcome.write (o : Outcome) : IO UInt32 := do
  IO.print o.stdout
  IO.eprint o.stderr
  return .ofNat o.code

/-- Carry out a command on the bundle from standard input. -/
def runProgram (arguments : List String) : IO UInt32 := do
  let lines ← readLines (← IO.getStdin) #[]
  match Bundle.ofLines lines.toList with
  | .error line =>
    let report := "Error: line " ++ toString line ++ " of the bundle cannot be read"
    Outcome.write ⟨1, "", Command.output [report]⟩
  | .ok bundle => Outcome.write (Command.runArguments bundle.parse bundle.disk arguments)

end ElmScope

/-- The entry point. -/
def main (arguments : List String) : IO UInt32 := ElmScope.runProgram arguments
