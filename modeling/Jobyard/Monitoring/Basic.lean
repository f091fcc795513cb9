import Jobyard.Document.Collection
import Jobyard.Document.Server
import Jobyard.Monitoring.Row
import Jobyard.Monitoring.StatsKey
import Jobyard.Queue.Listing
import Jobyard.Queue.Routing

/-!
What an operator sees: numbers of jobs by state, counts by day and by hour, listings of jobs,
queues and servers.
-/

namespace Jobyard

structure Monitoring where
  store : StoreRef
  routing : Routing

namespace Monitoring

variable {α ρ : Type}

def alone (m : Monitoring) (work : Work α) : Action α := Work.alone m.store work

def inState (state : String) : Query :=
  (Query.of Job).filter "state.name" (.equals (.str state))

def countIn (m : Monitoring) (state : String) : Action Nat :=
  Action.store m.store (.count (inState state))

/-- The set of the jobs that recur. -/
def recurringSet : String := "recurring-jobs"

def namesOf : List JobQueue → Dict String Unit → Action (Dict String Unit)
  | [], found => pure found
  | queue :: rest, found => do
    let names ← QueueListing.names queue.store
    namesOf rest (found.insertMany (names.map fun name => (name, ())))

/-- The names of all queues with entries, over all providers. -/
def queueNames (m : Monitoring) : Action (List String) := do
  pure (← namesOf m.routing.distinct ∅).keys

def statistics (m : Monitoring) : Action Statistics := do
  let servers ← Action.store m.store (.count (Query.of Server))
  let recurring ← m.alone (Work.load ScoredSet (Document.idFor ScoredSet recurringSet))
  let queues ← m.queueNames
  let enqueued ← m.countIn StateName.enqueued
  let scheduled ← m.countIn StateName.scheduled
  let processing ← m.countIn StateName.processing
  let succeeded ← m.countIn StateName.succeeded
  let failed ← m.countIn StateName.failed
  let deleted ← m.countIn StateName.deleted
  pure { servers, queues := queues.length,
         recurring := (recurring.map fun s => s.scores.size).getD 0, enqueued, scheduled,
         processing, succeeded, failed, deleted }

def queueCounts (m : Monitoring) (queue : String) : Action QueueCounts :=
  QueueListing.counts (m.routing.serving queue).store queue

def counterValues (m : Monitoring) (keys : List String) : Action (List Int) := do
  let counters ← m.alone (Work.loadMany Counter (keys.map (Document.idFor Counter)))
  pure (counters.map fun c => (c.map (·.value)).getD 0)

/-- A day and the six days before it, as far back as the calendar goes. -/
def lastDays (today : Int) : List Int :=
  ((List.range 7).map fun (back : Nat) => today - (back : Int)).filter (Instant.leastDay ≤ ·)

/-- Counts of the last seven days by day, the earliest first. -/
def byDay (m : Monitoring) (kind : String) : Action (List (Date × Int)) := do
  let now ← Action.now
  let days := (lastDays now.day).map Date.ofDay
  let values ← m.counterValues (days.map (StatsKey.daily kind))
  pure (days.zip values).reverse

/-- The start of an hour and of the 23 hours before it. -/
def lastHours (now : Instant) : List Instant :=
  (List.range 24).filterMap fun (back : Nat) =>
    now.hourStart.minus? (.ofSeconds ((back : Int) * 3600))

/-- Counts of the last 24 hours by hour, the earliest first. -/
def byHour (m : Monitoring) (kind : String) : Action (List (Instant × Int)) := do
  let now ← Action.now
  let hours := lastHours now
  let values ← m.counterValues (hours.map (StatsKey.hourly kind))
  pure (hours.zip values).reverse

/-- Jobs in a state, the newest first. -/
def jobsIn (m : Monitoring) (state : String) (row : Job → ρ) (skip take : Nat) :
    Action (JobList ρ) := do
  let query := { (inState state).page skip take with order := Order.newestFirst }
  let jobs ← m.alone (Work.query Job query)
  pure (jobs.map fun entry => (⟨entry.1.key⟩, row entry.2))

/-- Jobs by their identifiers; those that are gone are left out. -/
def jobsById (m : Monitoring) (ids : List JobId) (row : Job → ρ) : Action (JobList ρ) := do
  let jobs ← m.alone (Work.loadMany Job (ids.map fun id => Document.idFor Job id.text))
  pure ((ids.zip jobs).filterMap fun entry => entry.2.map fun job => (entry.1, row job))

def enqueuedCount (m : Monitoring) (queue : String) : Action Nat := do
  pure (← m.queueCounts queue).enqueued

def fetchedCount (m : Monitoring) (queue : String) : Action Nat := do
  pure (← m.queueCounts queue).fetched

def enqueuedJobs (m : Monitoring) (queue : String) (skip take : Nat) :
    Action (JobList EnqueuedRow) := do
  let ids ← QueueListing.enqueuedIds (m.routing.serving queue).store queue skip take
  m.jobsById ids Job.enqueuedRow

def fetchedJobs (m : Monitoring) (queue : String) (skip take : Nat) :
    Action (JobList FetchedRow) := do
  let ids ← QueueListing.fetchedIds (m.routing.serving queue).store queue skip take
  m.jobsById ids Job.fetchedRow

def processingJobs (m : Monitoring) : Nat → Nat → Action (JobList ProcessingRow) :=
  m.jobsIn StateName.processing Job.processingRow

def scheduledJobs (m : Monitoring) : Nat → Nat → Action (JobList ScheduledRow) :=
  m.jobsIn StateName.scheduled Job.scheduledRow

def succeededJobs (m : Monitoring) : Nat → Nat → Action (JobList SucceededRow) :=
  m.jobsIn StateName.succeeded Job.succeededRow

def failedJobs (m : Monitoring) : Nat → Nat → Action (JobList FailedRow) :=
  m.jobsIn StateName.failed Job.failedRow

def deletedJobs (m : Monitoring) : Nat → Nat → Action (JobList DeletedRow) :=
  m.jobsIn StateName.deleted Job.deletedRow

def jobDetails (m : Monitoring) (id : JobId) : Action (Option JobDetails) :=
  m.alone do
    let document := Document.idFor Job id.text
    match ← Work.load Job document with
    | none => pure none
    | some job =>
      let expireAt ← Work.expiry document
      pure (some ⟨job.call?, job.createdAt, expireAt, job.history, job.parameters⟩)

/-- How many waiting jobs are listed with each queue. -/
def firstJobs : Nat := 5

def queueRow (m : Monitoring) (name : String) : Action QueueRow := do
  let store := (m.routing.serving name).store
  let counts ← QueueListing.counts store name
  let ids ← QueueListing.enqueuedIds store name 0 firstJobs
  let jobs ← m.jobsById ids Job.enqueuedRow
  pure ⟨name, counts.enqueued, counts.fetched, jobs⟩

def queues (m : Monitoring) : Action (List QueueRow) := do
  (← m.queueNames).mapM m.queueRow

def servers (m : Monitoring) : Action (List ServerRow) := do
  let servers ← m.alone (Work.query Server (Query.of Server))
  pure (servers.map fun entry =>
    ⟨entry.1.key, entry.2.lastHeartbeat, entry.2.data.queues, entry.2.data.startedAt,
      entry.2.data.workerCount⟩)

end Monitoring

end Jobyard
