import Jobyard.Proofs.Queue.Claim
import Jobyard.Proofs.Queue.Produce
import Jobyard.Proofs.Queue.Resolve
import Jobyard.Proofs.Simulation.Yard
import Jobyard.Reaper

/-!
What is done at a store with queues: producers, consumers, resolutions of leases, reapers, and
whatever else leaves queue entries alone. Each of these conducts itself by a rule of its own.
-/

namespace Jobyard.Simulation

inductive Task
  | enqueue (q : JobQueue) (queue : String) (jobId : JobId)
  | enqueueAll (store : StoreRef) (routing : Routing) (jobs : List (String × JobId))
  | dequeue (q : JobQueue) (queues : List String) (token : TokenRef) (limit : Nat)
  | acknowledge (l : Lease)
  | abandon (l : Lease)
  | drop (l : Lease)
  | reap (r : Reaper) (rounds : Nat)
  | other (p : Program Unit)

/-- What a task returns: a dequeue a lease, other tasks only whether they went well. -/
abbrev Outcome := Except QueueError (Option Lease)

def unleased {α : Type} : Except StoreError α → Outcome
  | .ok _ => .ok none
  | .error e => .error (.store e)

theorem isOk_unleased {α : Type} (result : Except StoreError α) :
    (unleased result).isOk = result.isOk := by
  cases result <;> rfl

def IsEntry (id : DocId) : Prop := id.collection = Document.collection QueueEntry

instance (id : DocId) : Decidable (IsEntry id) := inferInstanceAs (Decidable (_ = _))

def SparesEntries (store : StoreRef) (_ : Log) : Request → Prop
  | .store target (.commit batch) => target = store → ∀ w ∈ batch, ¬ IsEntry w.id
  | .store target .destroy => target ≠ store
  | _ => True

namespace Task

def program : Task → Program Outcome
  | enqueue q queue jobId => (q.enqueue queue jobId).run >>= fun result => pure (unleased result)
  | enqueueAll store routing jobs =>
    Transaction.enqueueAll store routing jobs >>= fun result => pure (unleased result)
  | dequeue q queues token limit => q.dequeue queues token limit
  | acknowledge l => l.acknowledge.run >>= fun result => pure (unleased result)
  | abandon l => l.abandon.run >>= fun result => pure (unleased result)
  | drop l => l.drop >>= fun _ => pure (.ok none)
  | reap r rounds => (r.runOnce rounds).run >>= fun result => pure (unleased result)
  | other p => p >>= fun _ => pure (.ok none)

def At (store : StoreRef) : Task → Prop
  | enqueue q .. => q.store = store
  | enqueueAll target .. => target = store
  | dequeue q .. => q.store = store
  | acknowledge l => l.store = store
  | abandon l => l.store = store
  | drop l => l.store = store
  | reap .. => True
  | other p => p.Conforms (SparesEntries store) (fun _ _ => True) []

def entries : Task → List QueueEntry
  | enqueue _ queue jobId => [QueueEntry.pending queue jobId]
  | enqueueAll _ _ jobs => Transaction.entriesOf jobs
  | _ => []

def allowed (store : StoreRef) (task : Task) : Log → Request → Prop :=
  match task with
  | enqueue .. => Produces store task.entries
  | enqueueAll .. => Produces store task.entries
  | dequeue q .. => q.Asks
  | acknowledge l => l.Resolves l.removal
  | abandon l => l.Resolves l.returned
  | drop l => l.Resolves l.returned
  | reap .. => SparesEntries store
  | other _ => SparesEntries store

def ends (task : Task) : Log → Outcome → Prop :=
  match task with
  | dequeue q .. => fun log outcome => q.Ends log (JobQueue.leaseOf outcome)
  | enqueue .. => fun log outcome => Concludes task.entries log outcome.isOk
  | enqueueAll .. => fun log outcome => Concludes task.entries log outcome.isOk
  | _ => fun _ _ => True

theorem conforms {store : StoreRef} {task : Task} (hat : task.At store) :
    task.program.Conforms (task.allowed store) task.ends [] := by
  cases task with
  | enqueue q queue jobId =>
      cases hat
      refine (q.conforms_enqueue queue jobId).bind fun log result hconcludes => ?_
      change Concludes _ log (unleased result).isOk
      rwa [isOk_unleased]
  | enqueueAll target routing jobs =>
      cases hat
      refine (Transaction.conforms_enqueueAll store routing jobs).bind
        fun log result hconcludes => ?_
      change Concludes _ log (unleased result).isOk
      rwa [isOk_unleased]
  | dequeue q queues token limit => exact q.conforms_dequeue queues token limit
  | acknowledge l => exact Lease.conforms_acknowledge.bind fun _ _ _ => trivial
  | abandon l => exact Lease.conforms_abandon.bind fun _ _ _ => trivial
  | drop l => exact Lease.conforms_drop.bind fun _ _ _ => trivial
  | other p => exact hat.bind fun _ _ _ => trivial
  | reap r rounds =>
      exact (r.conforms_runOnce rounds (fun _ => trivial) fun _ _ _ => trivial).bind
        fun _ _ _ => trivial

end Task

inductive Change
  | created (entries : List (DocId × QueueEntry))
  | claimed (lease : Lease) (timeout : Span)
  | requeued (l : Lease)
  | removed (l : Lease)

def Thread.change? (thread : Thread Task Outcome) : Option Change :=
  match thread.task with
  | .dequeue q .. =>
    match thread.rest with
    | .done (.ok (some lease)) => some (.claimed lease q.invisibility)
    | _ => none
  | .acknowledge l => if thread.log.landed then some (.removed l) else none
  | .abandon l => if thread.log.landed then some (.requeued l) else none
  | .drop l => if thread.log.landed then some (.requeued l) else none
  | .reap .. => none
  | .other _ => none
  | task =>
    if thread.log.landed then
      some (.created (entered thread.log.drawn.reverse task.entries))
    else none

def Event.change? : Event Task Outcome → Option Change
  | .proceeded _ thread => thread.change?
  | _ => none

theorem Thread.change?_created {thread : Thread Task Outcome}
    {created : List (DocId × QueueEntry)} (h : thread.change? = some (.created created)) :
    thread.log.landed = true ∧ created = entered thread.log.drawn.reverse thread.task.entries ∧
      ∀ store log request, thread.task.allowed store log request →
        Produces store thread.task.entries log request := by
  obtain ⟨task, log, rest⟩ := thread
  cases task with
  | enqueue q queue jobId =>
      simp only [Thread.change?] at h
      split at h
      · rename_i hlanded
        cases h
        exact ⟨hlanded, rfl, fun _ _ _ h => h⟩
      · cases h
  | enqueueAll store routing jobs =>
      simp only [Thread.change?] at h
      split at h
      · rename_i hlanded
        cases h
        exact ⟨hlanded, rfl, fun _ _ _ h => h⟩
      · cases h
  | reap r rounds => cases h
  | other p => cases h
  | _ =>
      simp only [Thread.change?] at h
      split at h <;> cases h

end Jobyard.Simulation
