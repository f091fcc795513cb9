import Jobyard.Document.Job

/-!
Rows of listings. A job whose stored call cannot be read is listed without it.
-/

namespace Jobyard

/-- Jobs with their rows, in the order of a listing. -/
abbrev JobList (ρ : Type) := List (JobId × ρ)

structure EnqueuedRow where
  call : Option Invocation
  state : Option String
  /-- Known while the job is still in that state. -/
  enqueuedAt : Option Instant

structure FetchedRow where
  call : Option Invocation
  state : Option String
  fetchedAt : Option Instant

structure ProcessingRow where
  call : Option Invocation
  server : Option String
  startedAt : Option Instant

structure ScheduledRow where
  call : Option Invocation
  enqueueAt : Option Instant
  scheduledAt : Option Instant

structure SucceededRow where
  call : Option Invocation
  result : Option String
  /-- Milliseconds of performance and latency together. -/
  totalDuration : Option Int
  succeededAt : Option Instant

structure FailedRow where
  call : Option Invocation
  reason : Option String
  exceptionType : Option String
  exceptionMessage : Option String
  exceptionDetails : Option String
  failedAt : Option Instant

structure DeletedRow where
  call : Option Invocation
  deletedAt : Option Instant

structure JobDetails where
  call : Option Invocation
  createdAt : Instant
  expireAt : Option Instant
  history : List HistoryEntry
  properties : Dict String String

structure QueueRow where
  name : String
  length : Nat
  fetched : Nat
  firstJobs : JobList EnqueuedRow

structure ServerRow where
  name : String
  heartbeat : Instant
  queues : List String
  startedAt : Option Instant
  workers : Nat

structure Statistics where
  servers : Nat
  queues : Nat
  recurring : Nat
  enqueued : Nat
  scheduled : Nat
  processing : Nat
  succeeded : Nat
  failed : Nat
  deleted : Nat
deriving DecidableEq

namespace Job

def call? (j : Job) : Option Invocation := j.invocation.decode.toOption

/-- A point of time in the data of the current state. -/
def stamp? (j : Job) (key : String) : Option Instant :=
  (j.state.bind fun s => s.get? key).bind Instant.parseStamp?

def datum? (j : Job) (key : String) : Option String := j.state.bind fun s => s.get? key

def isIn (j : Job) (state : String) : Bool := j.stateName? = some state

def millis? (j : Job) (key : String) : Option Int :=
  (j.datum? key).bind (Text.integer? Instant.leastMillis Instant.greatestMillis)

def enqueuedRow (j : Job) : EnqueuedRow :=
  ⟨j.call?, j.stateName?, if j.isIn StateName.enqueued then j.stamp? "EnqueuedAt" else none⟩

def fetchedRow (j : Job) : FetchedRow :=
  ⟨j.call?, j.stateName?, if j.isIn StateName.processing then j.stamp? "StartedAt" else none⟩

def processingRow (j : Job) : ProcessingRow :=
  ⟨j.call?, j.datum? "ServerId" <|> j.datum? "ServerName", j.stamp? "StartedAt"⟩

def scheduledRow (j : Job) : ScheduledRow :=
  ⟨j.call?, j.stamp? "EnqueueAt", j.stamp? "ScheduledAt"⟩

def succeededRow (j : Job) : SucceededRow where
  call := j.call?
  result := j.datum? "Result"
  totalDuration := do
    let performance ← j.millis? "PerformanceDuration"
    let latency ← j.millis? "Latency"
    return performance + latency
  succeededAt := j.stamp? "SucceededAt"

def failedRow (j : Job) : FailedRow where
  call := j.call?
  reason := j.state.bind (·.reason)
  exceptionType := j.datum? "ExceptionType"
  exceptionMessage := j.datum? "ExceptionMessage"
  exceptionDetails := j.datum? "ExceptionDetails"
  failedAt := j.stamp? "FailedAt"

def deletedRow (j : Job) : DeletedRow := ⟨j.call?, j.stamp? "DeletedAt"⟩

end Job

end Jobyard
