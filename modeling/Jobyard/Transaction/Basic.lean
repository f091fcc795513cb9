import Jobyard.Queue.Routing
import Jobyard.Time.Expiry

/-!
Write transactions: changes are gathered in a session and committed as one batch. Actions wait
until the commit has succeeded.
-/

namespace Jobyard

inductive AfterCommit
  | wake (signal : SignalRef)
  | perform (action : String)
deriving DecidableEq

def AfterCommit.run : AfterCommit → Program Unit
  | .wake signal => Signal.notify signal
  | .perform action => Program.ask (.perform action)

structure Transaction where
  session : Session
  afterCommit : List AfterCommit
  routing : Routing

/-- Steps of a transaction; a failure leaves the transaction as far as the step got. -/
abbrev Step := ExceptT StoreError (StateT Transaction Program)

namespace Transaction

def start (store : StoreRef) (routing : Routing) : Transaction :=
  { session := Session.empty store true, afterCommit := [], routing }

/-- A summary for messages to people. -/
def summary (t : Transaction) : String :=
  "WriteOnlyTransaction \x7b session: " ++ t.session.summary ++ ", after_commit: " ++
    toString t.afterCommit.length ++ ", .. \x7d"

end Transaction

namespace Step

variable {α : Type}

/-- Work on the session of the transaction. -/
def ofWork (work : Work α) : Step α :=
  ExceptT.mk fun t => do
    let (result, session) ← (work.run).run t.session
    pure (result, { t with session })

def afterCommit (action : AfterCommit) : Step Unit :=
  modify fun t => { t with afterCommit := t.afterCommit ++ [action] }

def runAll : List AfterCommit → Program Unit
  | [] => pure ()
  | action :: rest => do
    action.run
    runAll rest

/-- Saves everything and then runs the actions in the order in which they were added. After a
failure nothing was saved and none of them runs. -/
def commit : Step Unit := do
  ofWork Work.saveChanges
  let t ← get
  ExceptT.lift (StateT.lift (runAll t.afterCommit))
  set { t with afterCommit := [] }

end Step

end Jobyard
