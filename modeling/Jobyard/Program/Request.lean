import Jobyard.Store.Query
import Jobyard.Time.Duration

/-!
What programs ask of the world around them: calls of document stores, the time, fresh texts,
wake-up signals, cancellation tokens, and actions that only the host can perform.
-/

namespace Jobyard

/-- The place of a store among the stores of the world. -/
structure StoreRef where
  index : Nat
deriving DecidableEq, Inhabited

structure SignalRef where
  index : Nat
deriving DecidableEq, Inhabited

structure TokenRef where
  index : Nat
deriving DecidableEq, Inhabited

inductive StoreCall
  | setup
  | destroy
  | load (ids : List DocId)
  | query (q : Query)
  | count (q : Query)
  | commit (batch : Batch)
  | purge (now : Instant) (limit : Nat)

/-- What a successful call returns; a load has one entry for each of its identifiers. -/
abbrev StoreCall.Answer : StoreCall → Type
  | .setup => Unit
  | .destroy => Unit
  | .load _ => List (Option Stored)
  | .query _ => List Stored
  | .count _ => Nat
  | .commit _ => Unit
  | .purge .. => Nat

inductive Request
  | store (target : StoreRef) (call : StoreCall)
  | now
  /-- A text that was never given out before. -/
  | freshText
  | notify (signal : SignalRef)
  | generation (signal : SignalRef)
  /-- Waits until the generation is another one than `seen`, or for the given time. -/
  | wait (signal : SignalRef) (seen : UInt64) (timeout : Duration)
  | isCancelled (token : TokenRef)
  | raise (token : TokenRef)
  /-- Has a signal notified when the token is cancelled. -/
  | watch (token : TokenRef) (signal : SignalRef)
  /-- The watched signals, which are watched no longer. -/
  | takeWatched (token : TokenRef)
  | perform (action : String)

abbrev Request.Reply : Request → Type
  | .store _ call => Except StoreError call.Answer
  | .now => Instant
  | .freshText => String
  | .notify _ => Unit
  | .generation _ => UInt64
  | .wait .. => UInt64
  | .isCancelled _ => Bool
  | .raise _ => Unit
  | .watch .. => Unit
  | .takeWatched _ => List SignalRef
  | .perform _ => Unit

end Jobyard
