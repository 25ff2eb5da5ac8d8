import LetPoly.CommandLine

/-! # The program
-/

/-- Print the output of the command line and exit with its code. -/
def main (args : List String) : IO UInt32 := do
  let output := LetPoly.CommandLine.run args
  IO.print output.stdout
  if output.exitCode ≠ 0 then
    IO.eprintln "usage: letpoly [--demo] [--subst] [-v] [EXPRS]..."
  return output.exitCode.toUInt32
