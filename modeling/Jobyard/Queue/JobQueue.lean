import Jobyard.Options.Basic
import Jobyard.Queue.Error
import Jobyard.Queue.Lease
import Jobyard.Queue.Signal
import Jobyard.Session.Work

/-!
A queue whose entries are documents. A consumer claims an entry by stamping it under the version
it read; of two that race for one entry, one loses and goes on to the next entry.
-/

namespace Jobyard

structure JobQueue where
  store : StoreRef
  signal : SignalRef
  pollInterval : Duration
  invisibility : Span
deriving DecidableEq

namespace JobQueue

def ofOptions (store : StoreRef) (signal : SignalRef) (o : Options) : JobQueue :=
  { store, signal, pollInterval := o.pollInterval, invisibility := o.invisibility.toSpan }

/-- A summary for messages to people. -/
def summary (q : JobQueue) : String :=
  "DocumentJobQueue \x7b poll_interval: " ++ q.pollInterval.text ++
    ", invisibility_timeout: TimeDelta \x7b secs: " ++
    toString (q.invisibility.nanos / nanosPerSecond) ++ ", nanos: " ++
    toString (q.invisibility.nanos % nanosPerSecond) ++ " \x7d, .. \x7d"

/-- Adds a waiting entry to a unit of work. -/
def enqueueIn (queue : String) (jobId : JobId) : Work Unit := do
  let key ← Work.lift (Program.ask .freshText)
  Work.save (Document.idFor QueueEntry key) (QueueEntry.pending queue jobId)

/-- Adds a waiting entry in a unit of work of its own and wakes consumers. -/
def enqueue (q : JobQueue) (queue : String) (jobId : JobId) : Action Unit := do
  Work.alone q.store do
    enqueueIn queue jobId
    Work.saveChanges
  ExceptT.lift (Signal.notify q.signal)

/-- Stamps one entry; none when another consumer was first or the entry is gone. -/
def claim (q : JobQueue) (id : DocId) : Action (Option Lease) :=
  Work.alone q.store do
    match ← Work.load QueueEntry id with
    | none => pure none
    | some entry =>
      let now ← Work.now
      if entry.isClaimable now q.invisibility then
        let stamped := { entry with fetchedAt := some now }
        Work.save id stamped
        tryCatch (do
            Work.saveChanges
            pure (some (Lease.ofEntry q.store id stamped)))
          fun e => if e.isRetryable then pure none else throw e
      else pure none

/-- The first of several entries that can be claimed. -/
def claimAny (q : JobQueue) : List DocId → Action (Option Lease)
  | [] => pure none
  | id :: rest => do
    match ← q.claim id with
    | some lease => pure (some lease)
    | none => q.claimAny rest

def claimFirst (q : JobQueue) (query : Query) : Action (Option Lease) := do
  let candidates ← Work.alone q.store (Work.query QueueEntry query)
  q.claimAny (candidates.map (·.1))

def ofQueues (queues : List String) : Query :=
  (Query.of QueueEntry).filter "queue" (.oneOf (queues.map .str))

def pending (queues : List String) : Query := (ofQueues queues).filter "fetched_at" .isNull

/-- Entries whose consumers have kept them since before a point of time. -/
def stale (queues : List String) (cutoff : Instant) : Query :=
  (ofQueues queues).filter "fetched_at" (.before cutoff)

/-- One pass: waiting entries first, then those whose leases are too old. Without a point of time
that far back, leases do not grow too old. -/
def tryClaim (q : JobQueue) (queues : List String) : Action (Option Lease) := do
  match ← q.claimFirst (pending queues) with
  | some lease => pure (some lease)
  | none =>
    match (← Action.now).minus? q.invisibility with
    | none => pure none
    | some cutoff => q.claimFirst (stale queues cutoff)

/-- Passes with a wait after each that found nothing; none when all passes are used up. -/
def passes (q : JobQueue) (queues : List String) (token : TokenRef) :
    Nat → Program (Except QueueError (Option Lease))
  | 0 => pure (.ok none)
  | more + 1 => do
    if ← Token.isCancelled token then return .error .cancelled
    let seen ← Signal.generation q.signal
    match ← (q.tryClaim queues).outcome with
    | .error e => return .error (.store e)
    | .ok (some lease) => return .ok (some lease)
    | .ok none =>
      if ← Token.isCancelled token then return .error .cancelled
      discard (Signal.wait q.signal seen q.pollInterval)
      q.passes queues token more

/-- Leases the oldest claimable entry of the queues, in at most so many passes, unless the token
is cancelled. -/
def dequeue (q : JobQueue) (queues : List String) (token : TokenRef) (limit : Nat) :
    Program (Except QueueError (Option Lease)) := do
  if queues.isEmpty then return .error .noQueue
  Token.register token q.signal
  q.passes queues token limit

end JobQueue

end Jobyard
