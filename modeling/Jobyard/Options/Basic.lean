import Jobyard.Text.Blank
import Jobyard.Time.Duration

/-!
Options of a storage, their defaults and the bounds they have to keep.
-/

namespace Jobyard

structure Options where
  /-- The longest wait before a queue is looked at again. -/
  pollInterval : Duration
  /-- A lease kept for longer counts as abandoned. -/
  invisibility : Duration
  checkInterval : Duration
  batchSize : Nat
  /-- The database to use; without one documents are kept in memory. -/
  databaseUrl : Option String
  maxConnections : Nat
  queues : List String
deriving DecidableEq, Repr

inductive OptionsError
  | unreadable (name value : String)
  | zeroPollInterval
  | zeroCheckInterval
  | zeroBatchSize
  | namelessQueue
  | invisibilityTooLong
deriving DecidableEq

def OptionsError.message : OptionsError → String
  | .unreadable name value => "invalid value for " ++ name ++ ": '" ++ value ++ "'"
  | .zeroPollInterval => "queue_poll_interval must be greater than zero"
  | .zeroCheckInterval => "expiration_check_interval must be greater than zero"
  | .zeroBatchSize => "expiration_batch_size must be greater than zero"
  | .namelessQueue => "queues must name at least one non-empty queue"
  | .invisibilityTooLong => "invisibility_timeout is too large"

namespace Options

def standard : Options where
  pollInterval := .ofSeconds 15
  invisibility := .ofSeconds 1800
  checkInterval := .ofSeconds 1800
  batchSize := 1000
  databaseUrl := none
  maxConnections := 10
  queues := ["default"]

instance : Inhabited Options := ⟨standard⟩

/-- The bounds, in the order in which they are checked. -/
def validate (o : Options) : Except OptionsError Unit :=
  if o.pollInterval.isZero then .error .zeroPollInterval
  else if o.checkInterval.isZero then .error .zeroCheckInterval
  else if o.batchSize = 0 then .error .zeroBatchSize
  else if o.queues.isEmpty || o.queues.any (fun queue => Text.trim queue = "") then
    .error .namelessQueue
  else if o.invisibility.toSpan?.isNone then .error .invisibilityTooLong
  else .ok ()

end Options

end Jobyard
