import Jobyard.Connection.Collection
import Jobyard.Connection.Job
import Jobyard.Connection.Server
import Jobyard.Options.Environment
import Jobyard.Storage
import Jobyard.Transaction.Collection
import Jobyard.Transaction.Job

/-!
A sample: a producer enqueues some jobs, two workers lease, perform and complete them, and then
the numbers are read.
-/

namespace Jobyard.Sample

inductive Failure
  | store (cause : StoreError)
  | queue (cause : QueueError)
  | vanished
deriving DecidableEq

def Failure.message : Failure → String
  | .store cause => cause.message
  | .queue cause => cause.message
  | .vanished => "leased job vanished"

abbrev Play := ExceptT Failure Program

def ofAction {α : Type} (a : Action α) : Play α :=
  ExceptT.mk do
    match ← a.outcome with
    | .ok value => pure (.ok value)
    | .error e => pure (.error (.store e))

def server : String := "demo-server"

/-- How often a transaction is tried again after it lost a race. -/
def retries : Nat := 4

/-- Builds and commits a transaction, anew after each lost race. -/
def commitWithRetry (s : Storage) (step : Step Unit) : Nat → Action Unit
  | 0 => ExceptT.mk do
    let (result, _) ← ((do
      step
      Step.commit : Step Unit).run).run s.transaction
    pure result
  | more + 1 => ExceptT.mk do
    let (built, t) ← (step.run).run s.transaction
    match built with
    | .error e => pure (.error e)
    | .ok _ =>
      match ← (Step.commit.run).run t with
      | (.ok _, _) => pure (.ok ())
      | (.error e, _) =>
        if e.isRetryable then (commitWithRetry s step more).run else pure (.error e)

def enqueue (s : Storage) (queue message : String) : Action JobId := do
  let invocation := InvocationData.ofInvocation
    ⟨"Console", "WriteLine", ["System.String"], [.str message]⟩
  let id ← s.connection.createExpiredJob invocation ∅ (← Action.now) (.ofSeconds 3600)
  let enqueued := ((JobState.named StateName.enqueued).withData "EnqueuedAt"
    (← Action.now).text).withData "Queue" queue
  commitWithRetry s (do
    Step.setJobState id enqueued
    Step.persistJob id
    Step.addToQueue queue id) retries
  pure id

/-- The key that counts finished jobs. -/
def succeededKey : String := "stats:succeeded"

def perform (s : Storage) (worker : Nat) (lease : Lease) : Play Unit := do
  let id := lease.jobId
  let started ← ofAction Action.now
  let processing := (((JobState.named StateName.processing).withData "StartedAt"
    started.text).withData "ServerId" server).withData "WorkerId" (toString worker)
  ofAction (commitWithRetry s (Step.setJobState id processing) retries)
  let data ← ofAction (s.connection.jobData id)
  if data.isNone then throw .vanished
  let now ← ofAction Action.now
  let latency := ((started.since now).nanos.tdiv 1000000).natAbs
  let succeeded := (((JobState.named StateName.succeeded).withData "SucceededAt"
    now.text).withData "PerformanceDuration" "1").withData "Latency" (toString latency)
  ofAction (commitWithRetry s (do
    Step.setJobState id succeeded
    Step.expireJob id (.ofSeconds 86400)
    Step.addToCounter succeededKey 1 none
    Step.addToCounter (StatsKey.daily "succeeded" now.date) 1 (some (.ofSeconds 2592000))
    Step.addToCounter (StatsKey.hourly "succeeded" now) 1 (some (.ofSeconds 86400))) retries)
  discard (ofAction lease.acknowledge)

/-- Worker turns, each with one job, until a turn finds none. -/
def work (s : Storage) (token : TokenRef) : Nat → Play Unit
  | 0 => pure ()
  | more + 1 => do
    match ← ExceptT.lift (s.connection.fetchNextJob s.options.queues token 1) with
    | .error e => throw (.queue e)
    | .ok none => pure ()
    | .ok (some lease) =>
      perform s (more % 2) lease
      work s token more

def enqueueAll (s : Storage) (queues : List String) : List Nat → Action Unit
  | [] => pure ()
  | i :: rest => do
    let queue := (queues[i % queues.length]?).getD ""
    discard (enqueue s queue ("Hello, world #" ++ toString i))
    enqueueAll s queues rest

def jobs : Nat := 10

structure Report where
  statistics : Statistics
  listed : JobList SucceededRow
  counter : Int

/-- How many finished jobs are listed. -/
def listedJobs : Nat := 3

def play (s : Storage) (token : TokenRef) : Play Report := do
  let c := s.connection
  let now ← ofAction Action.now
  ofAction (c.announceServer server ⟨2, s.options.queues, some now⟩)
  ofAction (enqueueAll s s.options.queues (List.range jobs))
  work s token jobs
  discard (ofAction (c.heartbeat server))
  ExceptT.lift (Token.cancel token)
  let statistics ← ofAction s.monitoring.statistics
  let listed ← ofAction (s.monitoring.succeededJobs 0 listedJobs)
  let counter ← ofAction (c.counter succeededKey)
  ofAction (c.removeServer server)
  pure { statistics, listed, counter }

/-- The numbers, one to a line. -/
def statisticsLines (s : Statistics) : List String :=
  let row (name : String) (n : Nat) (more : String) : String :=
    "  \"" ++ name ++ "\": " ++ toString n ++ more
  ["\x7b", row "servers" s.servers ",", row "queues" s.queues ",",
    row "recurring" s.recurring ",", row "enqueued" s.enqueued ",",
    row "scheduled" s.scheduled ",", row "processing" s.processing ",",
    row "succeeded" s.succeeded ",", row "failed" s.failed ",", row "deleted" s.deleted "", "\x7d"]

def known (text : Option String) : String :=
  match text with
  | some text => "Some(" ++ text ++ ")"
  | none => "None"

def rowLine (entry : JobId × SucceededRow) : String :=
  entry.1.text ++ ": succeeded at " ++ known (entry.2.succeededAt.map Instant.text) ++
    ", total " ++ known (entry.2.totalDuration.map toString) ++ " ms"

def Report.lines (r : Report) : List String :=
  statisticsLines r.statistics ++ r.listed.map rowLine ++
    ["succeeded counter: " ++ toString r.counter]

/-- Why the sample ended early: what it was doing, and the cause. -/
structure Complaint where
  context : Option String
  cause : String
deriving DecidableEq

def Complaint.lines (c : Complaint) : List String :=
  match c.context with
  | some context => ["Error: " ++ context, "", "Caused by:", "    " ++ c.cause]
  | none => ["Error: " ++ c.cause]

def exitCode {α : Type} : Except Complaint α → Nat
  | .ok _ => 0
  | .error _ => 1

/-- Opens the storage that the options ask for. Only stores in memory can be opened here. -/
def openStorage (store : StoreRef) (signal : SignalRef) (o : Options) :
    Program (Except String Storage) :=
  if o.databaseUrl.isSome then pure (.error (StoreError.connection .connect).message)
  else
    match Storage.openAt store signal o with
    | .error e => pure (.error e.message)
    | .ok opening => do return (← opening.outcome).mapError StoreError.message

/-- The whole sample with options from variables. -/
def program (lookup : String → Option String) (store : StoreRef) (signal : SignalRef)
    (token : TokenRef) : Program (Except Complaint Report) := do
  match Options.ofVariables lookup with
  | .error e => return .error ⟨some "invalid storage configuration", e.message⟩
  | .ok options =>
    match ← openStorage store signal options with
    | .error cause => return .error ⟨some "failed to open job storage", cause⟩
    | .ok s => return (← (play s token).run).mapError fun e => ⟨none, e.message⟩

end Jobyard.Sample
