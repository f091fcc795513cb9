import Jobyard.Document.Basic
import Jobyard.Document.Record

/-!
Entries of queues: a job that waits, or that a consumer has fetched at some time.
-/

namespace Jobyard

structure QueueEntry where
  jobId : JobId
  queue : String
  fetchedAt : Option Instant
deriving DecidableEq, Inhabited

namespace QueueEntry

/-- An entry that waits. -/
def pending (queue : String) (jobId : JobId) : QueueEntry := ⟨jobId, queue, none⟩

/-- Whether a consumer may take the entry: it waits, or its consumer has kept it for longer than
the timeout. A time beyond the calendar is never reached. -/
def isClaimable (e : QueueEntry) (now : Instant) (timeout : Span) : Bool :=
  match e.fetchedAt with
  | none => true
  | some fetchedAt =>
    match fetchedAt.plus? timeout with
    | none => false
    | some visibleAgain => visibleAgain.before now

instance : Document QueueEntry where
  collection := "job_queues"
  encode e := .object [("job_id", .str e.jobId.text), ("queue", .str e.queue),
    ("fetched_at", .ofOption .ofInstant e.fetchedAt)]
  decode? value := do
    let r ← Record.ofJson? ["job_id", "queue", "fetched_at"] value
    return {
      jobId := ⟨← r.required "job_id" Json.str?⟩
      queue := ← r.required "queue" Json.str?
      fetchedAt := ← r.optional "fetched_at" Json.instant? }

end QueueEntry

end Jobyard
