import Jobyard.Store.Error
import Jobyard.Text.Quoted

/-!
Failures of fetching from a queue. Cancellation is the normal end of a worker.
-/

namespace Jobyard

inductive QueueError
  | cancelled
  | noQueue
  | severalProviders (queues : List String)
  | store (cause : StoreError)
deriving DecidableEq

namespace QueueError

def message : QueueError → String
  | .cancelled => "dequeue cancelled"
  | .noQueue => "invalid argument: at least one queue must be given"
  | .severalProviders queues =>
    "invalid argument: queues " ++ Text.quoteList queues ++
      " are served by more than one provider"
  | .store cause => cause.message

end QueueError

end Jobyard
