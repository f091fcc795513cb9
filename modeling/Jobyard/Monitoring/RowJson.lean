import Jobyard.Connection.Job
import Jobyard.Monitoring.Row
import Jobyard.Queue.Listing

/-!
The JSON form of calls and rows.
-/

namespace Jobyard

open Json (ofOption ofInstant ofTexts)

def Invocation.encode (i : Invocation) : Json :=
  .object [("type_name", .str i.typeName), ("method", .str i.method),
    ("parameter_types", ofTexts i.parameterTypes), ("args", .arr i.arguments)]

namespace Json

def ofCall (call : Option Invocation) : Json := ofOption Invocation.encode call

def ofText (text : Option String) : Json := ofOption .str text

def ofTime (time : Option Instant) : Json := ofOption ofInstant time

def ofJobs {ρ : Type} (encode : ρ → Json) (jobs : JobList ρ) : Json :=
  .arr (jobs.map fun entry => .arr [.str entry.1.text, encode entry.2])

end Json

open Json (ofCall ofText ofTime ofJobs)

def JobData.encode (d : JobData) : Json :=
  .object [("job", ofCall d.call.toOption), ("state", ofText d.state),
    ("created_at", ofInstant d.createdAt),
    ("load_error", match d.call with
      | .ok _ => .null
      | .error e => .str e.message)]

def QueueCounts.encode (c : QueueCounts) : Json :=
  .object [("enqueued", .int c.enqueued), ("fetched", .int c.fetched)]

/-- Counts by day. -/
def Json.ofDays (days : List (Date × Int)) : Json :=
  .arr (days.map fun entry => .arr [.str (TimeText.date entry.1), .int entry.2])

def Json.ofHours (hours : List (Instant × Int)) : Json :=
  .arr (hours.map fun entry => .arr [ofInstant entry.1, .int entry.2])

def EnqueuedRow.encode (r : EnqueuedRow) : Json :=
  .object [("job", ofCall r.call), ("state", ofText r.state), ("enqueued_at", ofTime r.enqueuedAt)]

def FetchedRow.encode (r : FetchedRow) : Json :=
  .object [("job", ofCall r.call), ("state", ofText r.state), ("fetched_at", ofTime r.fetchedAt)]

def ProcessingRow.encode (r : ProcessingRow) : Json :=
  .object [("job", ofCall r.call), ("server_id", ofText r.server),
    ("started_at", ofTime r.startedAt)]

def ScheduledRow.encode (r : ScheduledRow) : Json :=
  .object [("job", ofCall r.call), ("enqueue_at", ofTime r.enqueueAt),
    ("scheduled_at", ofTime r.scheduledAt)]

def SucceededRow.encode (r : SucceededRow) : Json :=
  .object [("job", ofCall r.call), ("result", ofText r.result),
    ("total_duration", ofOption .int r.totalDuration), ("succeeded_at", ofTime r.succeededAt),
    ("in_succeeded_state", .bool true)]

def FailedRow.encode (r : FailedRow) : Json :=
  .object [("job", ofCall r.call), ("reason", ofText r.reason),
    ("exception_type", ofText r.exceptionType), ("exception_message", ofText r.exceptionMessage),
    ("exception_details", ofText r.exceptionDetails), ("failed_at", ofTime r.failedAt)]

def DeletedRow.encode (r : DeletedRow) : Json :=
  .object [("job", ofCall r.call), ("deleted_at", ofTime r.deletedAt)]

def JobDetails.encode (d : JobDetails) : Json :=
  .object [("job", ofCall d.call), ("created_at", ofInstant d.createdAt),
    ("expire_at", ofTime d.expireAt), ("history", .arr (d.history.map HistoryEntry.encode)),
    ("properties", .ofDict .str d.properties)]

def QueueRow.encode (r : QueueRow) : Json :=
  .object [("name", .str r.name), ("length", .int r.length), ("fetched", .int r.fetched),
    ("first_jobs", ofJobs EnqueuedRow.encode r.firstJobs)]

def ServerRow.encode (r : ServerRow) : Json :=
  .object [("name", .str r.name), ("heartbeat", ofInstant r.heartbeat),
    ("queues", ofTexts r.queues), ("started_at", ofTime r.startedAt),
    ("workers_count", .int r.workers)]

def Statistics.encode (s : Statistics) : Json :=
  .object [("servers", .int s.servers), ("queues", .int s.queues),
    ("recurring", .int s.recurring), ("enqueued", .int s.enqueued),
    ("scheduled", .int s.scheduled), ("processing", .int s.processing),
    ("succeeded", .int s.succeeded), ("failed", .int s.failed), ("deleted", .int s.deleted)]

end Jobyard
