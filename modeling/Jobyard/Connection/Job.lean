import Jobyard.Connection.Basic
import Jobyard.Transaction.Job

/-!
Jobs as hosts create and read them.
-/

namespace Jobyard

/-- A job for a worker, or why it cannot be called. -/
structure JobData where
  call : Except ModelError Invocation
  state : Option String
  createdAt : Instant

def Job.forWorker (j : Job) : JobData := ⟨j.invocation.decode, j.stateName?, j.createdAt⟩

namespace Connection

/-- Creates a job that expires unless a later step keeps it. -/
def createExpiredJob (c : Connection) (invocation : InvocationData)
    (parameters : Dict String String) (createdAt : Instant) (length : Duration) :
    Action JobId := do
  let key ← ExceptT.lift (Program.ask .freshText)
  let id := Document.idFor Job key
  c.alone do
    Work.save id ({ Job.blank with invocation, parameters, createdAt } : Job)
    discard (Work.setExpiry id (createdAt.expiresIn length))
    Work.saveChanges
  pure ⟨key⟩

def setJobParameter (c : Connection) (job : JobId) (name value : String) : Action Unit :=
  c.alone do
    let id := Step.jobDocument job
    match ← Work.load Job id with
    | none => throw (.missing id)
    | some j =>
      Work.save id { j with parameters := j.parameters.insert name value }
      Work.saveChanges

def jobParameter (c : Connection) (job : JobId) (name : String) : Action (Option String) := do
  let j ← c.load Job job.text
  pure (j.bind fun j => j.parameters.find? name)

def jobData (c : Connection) (job : JobId) : Action (Option JobData) := do
  let j ← c.load Job job.text
  pure (j.map Job.forWorker)

def stateData (c : Connection) (job : JobId) : Action (Option JobState) := do
  let j ← c.load Job job.text
  pure (j.bind (·.state))

end Connection

end Jobyard
