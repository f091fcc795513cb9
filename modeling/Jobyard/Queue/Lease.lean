import Jobyard.Document.QueueEntry
import Jobyard.Program.Basic

/-!
Leases on queue entries. A lease owns its entry as long as the entry carries the stamp of the
claim; once another consumer has it, resolving the lease does nothing.
-/

namespace Jobyard

structure Lease where
  store : StoreRef
  entryId : DocId
  jobId : JobId
  queue : String
  /-- The stamp that the claim wrote. -/
  claimedAt : Option Instant
  resolved : Bool
deriving DecidableEq

namespace Lease

def ofEntry (store : StoreRef) (entryId : DocId) (entry : QueueEntry) : Lease :=
  { store, entryId, jobId := entry.jobId, queue := entry.queue, claimedAt := entry.fetchedAt,
    resolved := false }

/-- The stored entry, if it is still there with the stamp of this lease. -/
def ownedEntry (l : Lease) : Action (Option (Stored × QueueEntry)) := do
  match ← Action.store l.store (.load [l.entryId]) with
  | some stored :: _ =>
    let entry ← ExceptT.mk (pure (stored.decode QueueEntry))
    if entry.fetchedAt = l.claimedAt then pure (some (stored, entry)) else pure none
  | _ => pure none

/-- Commits one guarded write; a lost race means that the entry has another owner. -/
def commitOwned (l : Lease) (write : Write) : Action Bool :=
  ExceptT.mk do
    match ← (Action.store l.store (.commit [write])).outcome with
    | .ok _ => pure (.ok true)
    | .error e => pure (if e.isRetryable then .ok false else .error e)

/-- Puts an owned entry back. -/
def requeue (l : Lease) : Action Bool := do
  match ← l.ownedEntry with
  | none => pure false
  | some (stored, entry) =>
    l.commitOwned (.put l.entryId (Document.encode { entry with fetchedAt := none })
      stored.expiresAt (.exact stored.etag))

/-- Removes an owned entry. -/
def acknowledge (l : Lease) : Action Lease := do
  match ← l.ownedEntry with
  | none => pure ()
  | some (stored, _) => discard (l.commitOwned (.delete l.entryId (.exact stored.etag)))
  pure { l with resolved := true }

def abandon (l : Lease) : Action Lease := do
  discard l.requeue
  pure { l with resolved := true }

/-- Gives the lease up: an unresolved one is put back, and failures to do so are ignored. -/
def drop (l : Lease) : Program Unit :=
  if l.resolved then pure () else discard l.requeue.outcome

end Lease

end Jobyard
