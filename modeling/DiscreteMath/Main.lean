import DiscreteMath.CommandLine.Program

/-!
# Entry point

Prints what the program has to say for its arguments and ends with its exit code.
-/

def main (arguments : List String) : IO UInt32 := do
  let output := DiscreteMath.CommandLine.run arguments
  IO.print (DiscreteMath.Text.unlines output.printed)
  IO.eprint (DiscreteMath.Text.unlines (output.warnings.map ("[WARN] " ++ ·) ++ output.errors))
  return UInt32.ofNat output.exitCode
