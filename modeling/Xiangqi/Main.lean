import Xiangqi.Command.Arguments

/-!
# The perft program

Reads the command line, runs the command and prints its report.

Model of `main`. It only passes on what `Command.run` returns.
-/

open Xiangqi

/-- Print a report and hand back its exit code. -/
def Xiangqi.Command.Report.print (report : Command.Report) : IO UInt32 := do
  (← IO.getStdout).putStr report.stdout
  (← IO.getStderr).putStr report.stderr
  pure (UInt32.ofNat report.exitCode)

def main (arguments : List String) : IO UInt32 :=
  match Command.Arguments.read arguments with
  | .ok options => (Command.run options).print
  | .error message => Command.Report.print ⟨2, "", s!"error: {message}\n"⟩
