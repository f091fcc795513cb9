import Jobyard.Queue.JobQueue

/-!
Which queue serves which name. Names that are not routed go to the standard queue; queues are told
apart by their signals.
-/

namespace Jobyard

structure Routing where
  standard : JobQueue
  routed : Dict String JobQueue

namespace Routing

def single (standard : JobQueue) : Routing := ⟨standard, ∅⟩

/-- Routes names to a queue. -/
def add (r : Routing) (queue : JobQueue) (names : List String) : Routing :=
  { r with routed := r.routed.insertMany (names.map fun name => (name, queue)) }

def serving (r : Routing) (name : String) : JobQueue := (r.routed.find? name).getD r.standard

def same (a b : JobQueue) : Bool := a.signal = b.signal

/-- The different queues, the standard one first. -/
def distinct (r : Routing) : List JobQueue :=
  r.routed.values.foldl
    (fun found queue => if found.any (same queue) then found else found ++ [queue]) [r.standard]

/-- A summary for messages to people. -/
def summary (r : Routing) : String :=
  "QueueProviders \x7b routed_queues: " ++ Text.quoteList r.routed.keys ++ ", .. \x7d"

end Routing

end Jobyard
