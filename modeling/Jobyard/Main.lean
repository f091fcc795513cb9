import Jobyard.Sample.Basic
import Jobyard.Simulation.World

/-!
The sample as a program: variables come from the environment, documents are kept in memory, and
the clock counts from an arbitrary start.
-/

open Jobyard

def main : IO UInt32 := do
  let given ← Options.variableNames.filterMapM fun name => do
    return (← IO.getEnv name).map fun value => (name, value)
  let clock := (Instant.ofMillis? (← IO.monoMsNow)).getD .origin
  let world := Simulation.World.start clock
  let (result, _) := world.run (Sample.program (List.lookup · given) ⟨0⟩ ⟨0⟩ ⟨0⟩)
  match result with
  | .ok report => report.lines.forM IO.println
  | .error complaint => complaint.lines.forM IO.eprintln
  return (Sample.exitCode result).toUInt32
