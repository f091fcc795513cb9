import Jobyard.Connection.Basic
import Jobyard.Connection.Collection
import Jobyard.Connection.Job
import Jobyard.Connection.Server
import Jobyard.Dict
import Jobyard.Document.Basic
import Jobyard.Document.Collection
import Jobyard.Document.Job
import Jobyard.Document.QueueEntry
import Jobyard.Document.Record
import Jobyard.Document.Server
import Jobyard.Error
import Jobyard.Id
import Jobyard.Json.Access
import Jobyard.Json.Basic
import Jobyard.Json.Embedded
import Jobyard.Json.Number
import Jobyard.Json.Printer
import Jobyard.Json.Reader
import Jobyard.Log
import Jobyard.Main
import Jobyard.Monitoring.Basic
import Jobyard.Monitoring.Row
import Jobyard.Monitoring.RowJson
import Jobyard.Monitoring.StatsKey
import Jobyard.Number.Double
import Jobyard.Number.Rounding
import Jobyard.Number.Scaled
import Jobyard.Number.Shortest
import Jobyard.Number.Text
import Jobyard.Options.Basic
import Jobyard.Options.Environment
import Jobyard.Options.Json
import Jobyard.Program.Basic
import Jobyard.Program.Interaction
import Jobyard.Program.Request
import Jobyard.Proofs.Collection.Draft
import Jobyard.Proofs.Collection.Expiry
import Jobyard.Proofs.Collection.Plain
import Jobyard.Proofs.Collection.Ranking
import Jobyard.Proofs.Collection.Refinement
import Jobyard.Proofs.Collection.Slice
import Jobyard.Proofs.Collection.Trim
import Jobyard.Proofs.Connection.Job
import Jobyard.Proofs.Connection.Server
import Jobyard.Proofs.Counter.Convergence
import Jobyard.Proofs.Counter.Plan
import Jobyard.Proofs.Counter.Rise
import Jobyard.Proofs.Counter.Tally
import Jobyard.Proofs.Dict
import Jobyard.Proofs.Document.Invocation
import Jobyard.Proofs.Document.Proper
import Jobyard.Proofs.Document.RoundTrip
import Jobyard.Proofs.Document.Spelling
import Jobyard.Proofs.Id
import Jobyard.Proofs.Job.Conduct
import Jobyard.Proofs.Job.History
import Jobyard.Proofs.Job.Life
import Jobyard.Proofs.Job.Record
import Jobyard.Proofs.Json.Echo
import Jobyard.Proofs.Json.Quoted
import Jobyard.Proofs.Json.Traversal
import Jobyard.Proofs.Json.Whole
import Jobyard.Proofs.Json.Wrapper
import Jobyard.Proofs.Monitoring.StatsKey
import Jobyard.Proofs.Monitoring.Timeline
import Jobyard.Proofs.Number.Value
import Jobyard.Proofs.Program.Conduct
import Jobyard.Proofs.Queue.Announce
import Jobyard.Proofs.Queue.Cancellation
import Jobyard.Proofs.Queue.Claim
import Jobyard.Proofs.Queue.Delivery
import Jobyard.Proofs.Queue.Drain
import Jobyard.Proofs.Queue.Effect
import Jobyard.Proofs.Queue.Entry
import Jobyard.Proofs.Queue.Exclusion
import Jobyard.Proofs.Queue.Fate
import Jobyard.Proofs.Queue.Footprint
import Jobyard.Proofs.Queue.History
import Jobyard.Proofs.Queue.Listed
import Jobyard.Proofs.Queue.Ownership
import Jobyard.Proofs.Queue.Party
import Jobyard.Proofs.Queue.Pass
import Jobyard.Proofs.Queue.Pick
import Jobyard.Proofs.Queue.Produce
import Jobyard.Proofs.Queue.Resolve
import Jobyard.Proofs.Queue.Roll
import Jobyard.Proofs.Queue.Search
import Jobyard.Proofs.Queue.Stamp
import Jobyard.Proofs.Queue.Task
import Jobyard.Proofs.Queue.Wakeup
import Jobyard.Proofs.Queue.Wiring
import Jobyard.Proofs.Session.Account
import Jobyard.Proofs.Session.Desk
import Jobyard.Proofs.Session.Dismissal
import Jobyard.Proofs.Session.Glimpse
import Jobyard.Proofs.Session.Guard
import Jobyard.Proofs.Session.Held
import Jobyard.Proofs.Session.Learned
import Jobyard.Proofs.Session.Legible
import Jobyard.Proofs.Session.Mirror
import Jobyard.Proofs.Session.Operation
import Jobyard.Proofs.Session.Renewal
import Jobyard.Proofs.Session.Repeat
import Jobyard.Proofs.Session.Sight
import Jobyard.Proofs.Session.Start
import Jobyard.Proofs.Session.Touch
import Jobyard.Proofs.Simulation.Calm
import Jobyard.Proofs.Simulation.Commuting
import Jobyard.Proofs.Simulation.Heard
import Jobyard.Proofs.Simulation.Play
import Jobyard.Proofs.Simulation.Sequence
import Jobyard.Proofs.Simulation.Signal
import Jobyard.Proofs.Simulation.Trail
import Jobyard.Proofs.Simulation.Yard
import Jobyard.Proofs.Sql.Alignment
import Jobyard.Proofs.Sql.Identity
import Jobyard.Proofs.Sql.Page
import Jobyard.Proofs.Sql.Places
import Jobyard.Proofs.Sql.Protocol
import Jobyard.Proofs.Sql.Transcript
import Jobyard.Proofs.Storage.Conduct
import Jobyard.Proofs.Storage.Confined
import Jobyard.Proofs.Storage.Readable
import Jobyard.Proofs.Storage.Recovery
import Jobyard.Proofs.Store.Answer
import Jobyard.Proofs.Store.Arrival
import Jobyard.Proofs.Store.Counter
import Jobyard.Proofs.Store.Paging
import Jobyard.Proofs.Store.Purge
import Jobyard.Proofs.Store.Query
import Jobyard.Proofs.Store.Recall
import Jobyard.Proofs.Store.Rewrite
import Jobyard.Proofs.Store.Version
import Jobyard.Proofs.Store.Write
import Jobyard.Proofs.Text.Bytes
import Jobyard.Proofs.Time.Bucket
import Jobyard.Proofs.Time.Calendar
import Jobyard.Proofs.Time.Expiry
import Jobyard.Proofs.Time.Instant
import Jobyard.Proofs.Time.Text
import Jobyard.Proofs.Time.Timeout
import Jobyard.Proofs.Transaction.Commit
import Jobyard.Proofs.Transaction.Conduct
import Jobyard.Proofs.Transaction.Conflict
import Jobyard.Proofs.Transaction.Content
import Jobyard.Proofs.Transaction.Edit
import Jobyard.Proofs.Transaction.Failure
import Jobyard.Proofs.Transaction.Grouping
import Jobyard.Proofs.Transaction.Proper
import Jobyard.Proofs.Transaction.Reach
import Jobyard.Proofs.Transaction.Retention
import Jobyard.Proofs.Transaction.Revising
import Jobyard.Proofs.Transaction.Revision
import Jobyard.Queue.Error
import Jobyard.Queue.JobQueue
import Jobyard.Queue.Lease
import Jobyard.Queue.Listing
import Jobyard.Queue.Routing
import Jobyard.Queue.Signal
import Jobyard.Reaper
import Jobyard.Sample.Basic
import Jobyard.Session.Basic
import Jobyard.Session.Kind
import Jobyard.Session.Work
import Jobyard.Simulation.Peer
import Jobyard.Simulation.World
import Jobyard.Sql.Dialogue
import Jobyard.Sql.Row
import Jobyard.Sql.Statement
import Jobyard.Sql.Store
import Jobyard.Sql.Write
import Jobyard.Storage
import Jobyard.Store.Error
import Jobyard.Store.Memory
import Jobyard.Store.Query
import Jobyard.Store.Stored
import Jobyard.Text.Blank
import Jobyard.Text.Caseless
import Jobyard.Text.Printable
import Jobyard.Text.Quoted
import Jobyard.Text.Split
import Jobyard.Text.Whole
import Jobyard.Time.Calendar
import Jobyard.Time.Duration
import Jobyard.Time.Expiry
import Jobyard.Time.Instant
import Jobyard.Time.Text
import Jobyard.Transaction.Basic
import Jobyard.Transaction.Collection
import Jobyard.Transaction.Job
