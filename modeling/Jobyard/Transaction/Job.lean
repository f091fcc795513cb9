import Jobyard.Document.Job
import Jobyard.Transaction.Basic

/-!
Steps of transactions on jobs and queues.
-/

namespace Jobyard.Step

def jobDocument (id : JobId) : DocId := Document.idFor Job id.text

/-- Has a job expire; a missing job is passed over. -/
def expireJob (id : JobId) (length : Duration) : Step Unit :=
  ofWork do
    let now ← Work.now
    discard (Work.setExpiry (jobDocument id) (now.expiresIn length))

def persistJob (id : JobId) : Step Unit :=
  ofWork (discard (Work.removeExpiry (jobDocument id)))

/-- Gives a job a state, which also becomes the head of its history. -/
def setJobState (id : JobId) (state : JobState) : Step Unit :=
  ofWork do
    match ← Work.load Job (jobDocument id) with
    | none => throw (.missing (jobDocument id))
    | some job =>
      let now ← Work.now
      Work.save (jobDocument id) (job.enter state now)

/-- Puts a job into a queue; its consumers are woken after the commit. -/
def addToQueue (queue : String) (id : JobId) : Step Unit := do
  let serving := (← get).routing.serving queue
  ofWork (JobQueue.enqueueIn queue id)
  afterCommit (.wake serving.signal)

end Jobyard.Step
