import Jobyard.Queue.JobQueue

/-!
What stands in a queue: the names in use, pages of waiting and of fetched jobs, and their numbers.
-/

namespace Jobyard

structure QueueCounts where
  enqueued : Nat
  fetched : Nat
deriving DecidableEq

namespace QueueListing

def ofQueue (queue : String) : Query :=
  (Query.of QueueEntry).filter "queue" (.equals (.str queue))

def enqueued (queue : String) : Query := (ofQueue queue).filter "fetched_at" .isNull

def fetched (queue : String) : Query := (ofQueue queue).filter "fetched_at" .notNull

/-- The names of queues with entries, in order and each once. -/
def names (store : StoreRef) : Action (List String) := do
  let entries ← Work.alone store (Work.query QueueEntry (Query.of QueueEntry))
  pure (Dict.ofList (entries.map fun entry => (entry.2.queue, ()))).keys

def page (store : StoreRef) (query : Query) (skip take : Nat) : Action (List JobId) := do
  let entries ← Work.alone store (Work.query QueueEntry (query.page skip take))
  pure (entries.map (·.2.jobId))

def enqueuedIds (store : StoreRef) (queue : String) (skip take : Nat) : Action (List JobId) :=
  page store (enqueued queue) skip take

def fetchedIds (store : StoreRef) (queue : String) (skip take : Nat) : Action (List JobId) :=
  page store (fetched queue) skip take

def counts (store : StoreRef) (queue : String) : Action QueueCounts := do
  let enqueued ← Action.store store (.count (enqueued queue))
  let fetched ← Action.store store (.count (fetched queue))
  pure ⟨enqueued, fetched⟩

end QueueListing

end Jobyard
