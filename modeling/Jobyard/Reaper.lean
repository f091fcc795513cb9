import Jobyard.Options.Basic
import Jobyard.Program.Basic

/-!
The removal of expired documents, in batches.
-/

namespace Jobyard

structure Reaper where
  store : StoreRef
  batchSize : Nat
deriving DecidableEq

namespace Reaper

/-- A batch has at least one document. -/
def ofOptions (store : StoreRef) (o : Options) : Reaper := ⟨store, max o.batchSize 1⟩

/-- Removes batches until one is short; none when all rounds are used up. -/
def drain (r : Reaper) (now : Instant) (total : Nat) : Nat → Action (Option Nat)
  | 0 => pure none
  | more + 1 => do
    let purged ← Action.store r.store (.purge now r.batchSize)
    if purged < r.batchSize then pure (some (total + purged))
    else r.drain now (total + purged) more

/-- One pass, in at most so many rounds: removes what has expired by now. -/
def runOnce (r : Reaper) (rounds : Nat) : Action (Option Nat) := do
  let now ← Action.now
  r.drain now 0 rounds

end Reaper

structure ReaperStats where
  passes : Nat
  purged : Nat
deriving DecidableEq

/-- The numbers after one more pass; a failed pass counts as one that removed nothing. -/
def ReaperStats.record (s : ReaperStats) : Except StoreError (Option Nat) → ReaperStats
  | .ok purged => ⟨s.passes + 1, s.purged + purged.getD 0⟩
  | .error _ => ⟨s.passes + 1, s.purged⟩

/-- Passes one after the other. -/
def Reaper.runPasses (r : Reaper) (rounds : Nat) : Nat → ReaperStats → Program ReaperStats
  | 0, stats => pure stats
  | more + 1, stats => do
    let outcome ← (r.runOnce rounds).outcome
    r.runPasses rounds more (stats.record outcome)

end Jobyard
