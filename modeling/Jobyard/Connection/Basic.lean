import Jobyard.Transaction.Basic

/-!
Connections: what hosts read, and the few writes that are units of work of their own.
-/

namespace Jobyard

structure Connection where
  store : StoreRef
  routing : Routing

namespace Connection

variable {α : Type}

def alone (c : Connection) (work : Work α) : Action α := Work.alone c.store work

def load (c : Connection) (α : Type) [Document α] (key : String) : Action (Option α) :=
  c.alone (Work.load α (Document.idFor α key))

/-- The time until a document expires, negative if that has passed. -/
def timeLeft (c : Connection) (α : Type) [Document α] (key : String) : Action (Option Span) := do
  match ← c.alone (Work.expiry (Document.idFor α key)) with
  | none => pure none
  | some expiry => pure (some (expiry.since (← Action.now)))

def transaction (c : Connection) : Transaction := .start c.store c.routing

/-- Leases the next job of queues that one provider serves, in at most so many passes. -/
def fetchNextJob (c : Connection) (queues : List String) (token : TokenRef) (limit : Nat) :
    Program (Except QueueError (Option Lease)) :=
  match queues with
  | [] => pure (.error .noQueue)
  | first :: _ =>
    let serving := c.routing.serving first
    if queues.any fun queue => !Routing.same (c.routing.serving queue) serving then
      pure (.error (.severalProviders queues))
    else serving.dequeue queues token limit

/-- A summary for messages to people. -/
def summary (c : Connection) : String :=
  "StorageConnection \x7b queue_providers: " ++ c.routing.summary ++ ", .. \x7d"

end Connection

end Jobyard
