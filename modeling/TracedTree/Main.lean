import TracedTree.Demo

/-!
# The demonstration as a program

Prints the lines of the demonstration, with random keys from a seed taken from the clock.
-/

open TracedTree

/-- Print the demonstration. -/
def main : IO Unit := do
  for line in Demo.steadyLines do
    IO.println line
  let seed := UInt64.ofNat (← IO.monoNanosNow)
  match Demo.generatedLines (.seeded seed) (.seeded (seed + 1)) with
  | .error e => IO.eprintln e.message
  | .ok lines =>
    for line in ["Generated keys, instant playback", "------------------------------"] ++ lines do
      IO.println line
