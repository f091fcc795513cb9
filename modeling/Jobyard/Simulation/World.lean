import Jobyard.Program.Basic
import Jobyard.Store.Memory

/-!
A world in memory in which programs run: stores, a clock that stands still, signals and tokens.
Interference by others is planned as hooks on the calls of stores.
-/

namespace Jobyard.Simulation

/-- A written point of time; the ends of the calendar also have names. -/
def timeNamed (text : String) : Instant :=
  if text = "max" then .greatest
  else if text = "min" then .least
  else (Instant.parseLenient? text).getD .origin

inductive Method
  | setup
  | destroy
  | load
  | query
  | count
  | commit
  | purge
deriving DecidableEq

/-- All methods by their names. -/
def Method.all : List (String × Method) :=
  [("setup", .setup), ("destroy", .destroy), ("load", .load), ("query", .query),
    ("count", .count), ("commit", .commit), ("purge", .purge)]

def methodOf : StoreCall → Method
  | .setup => .setup
  | .destroy => .destroy
  | .load _ => .load
  | .query _ => .query
  | .count _ => .count
  | .commit _ => .commit
  | .purge .. => .purge

/-- What happens around one call of a store, in this order. -/
structure Effects where
  advance : Option Duration
  batch : Option Batch
  notify : Bool
  cancel : Bool
  fail : Option StoreError

/-- Effects that take place once, at a call some calls ahead. -/
structure Hook where
  method : Method
  /-- Calls of the method still to come, this one included; zero once it is used up. -/
  ahead : Nat
  before : Bool
  effects : Effects

structure Token where
  cancelled : Bool
  watched : List SignalRef

instance : Inhabited Token := ⟨⟨false, []⟩⟩

/-- A batch that reached a store, and whether it took effect. -/
structure Commit where
  batch : Batch
  applied : Bool

/-- A token that is cancelled by a coming query of a store. -/
structure Deadline where
  token : TokenRef
  queries : Nat

structure World where
  clock : Instant
  stores : Dict Nat Memory
  signals : Dict Nat UInt64
  tokens : Dict Nat Token
  hooks : List Hook
  deadline : Option Deadline
  /-- Fresh texts given out, the first one last. -/
  issued : List String
  /-- Fresh texts in the order in which they first came to a store as keys. -/
  published : List String
  commits : List Commit
  performed : List String

namespace World

def start (clock : Instant) : World :=
  { clock, stores := ∅, signals := ∅, tokens := ∅, hooks := [], deadline := none, issued := [],
    published := [], commits := [], performed := [] }

def memory (w : World) (store : StoreRef) : Memory :=
  (w.stores.find? store.index).getD .empty

def withMemory (w : World) (store : StoreRef) (m : Memory) : World :=
  { w with stores := w.stores.insert store.index m }

def generation (w : World) (signal : SignalRef) : UInt64 :=
  (w.signals.find? signal.index).getD 0

/-- Counts one more notification; the count starts again after the last number. -/
def notify (w : World) (signal : SignalRef) : World :=
  { w with signals := w.signals.insert signal.index (w.generation signal + 1) }

def token (w : World) (t : TokenRef) : Token := (w.tokens.find? t.index).getD default

def withToken (w : World) (t : TokenRef) (token : Token) : World :=
  { w with tokens := w.tokens.insert t.index token }

def raise (w : World) (t : TokenRef) : World :=
  w.withToken t { w.token t with cancelled := true }

def watch (w : World) (t : TokenRef) (signal : SignalRef) : World :=
  let token := w.token t
  if token.watched.contains signal then w
  else w.withToken t { token with watched := token.watched ++ [signal] }

def takeWatched (w : World) (t : TokenRef) : List SignalRef × World :=
  let token := w.token t
  (token.watched, w.withToken t { token with watched := [] })

/-- Cancels a token and notifies what it watches. -/
def cancel (w : World) (t : TokenRef) : World :=
  let (signals, w) := (w.raise t).takeWatched t
  signals.foldl notify w

/-- Moves the clock on, at most to the end of the calendar. -/
def advance (w : World) (length : Duration) : World :=
  { w with clock := (w.clock.plus? length.toSpan).getD .greatest }

/-- A call as the store itself answers it. -/
def apply (w : World) (store : StoreRef) :
    (call : StoreCall) → Except StoreError call.Answer × World
  | .setup => (.ok (), w)
  | .destroy => (.ok (), w.withMemory store (w.memory store).clear)
  | .load ids => (.ok ((w.memory store).load ids), w)
  | .query q => ((w.memory store).query q, w)
  | .count q => ((w.memory store).count q, w)
  | .commit batch =>
    match (w.memory store).commit batch with
    | .ok m => (.ok (), w.withMemory store m)
    | .error e => (.error e, w)
  | .purge now limit =>
    let (m, purged) := (w.memory store).purge now limit
    (.ok purged, w.withMemory store m)

/-- The signal of the standard queue. -/
def standardSignal : SignalRef := ⟨0⟩

def cancelPending (w : World) : World :=
  match w.deadline with
  | some deadline => w.cancel deadline.token
  | none => w

/-- Everything that a hook does but fail. -/
def interfere (w : World) (store : StoreRef) (e : Effects) : World :=
  let w := match e.advance with
    | some length => w.advance length
    | none => w
  let w := match e.batch with
    | some batch => (w.apply store (.commit batch)).2
    | none => w
  let w := if e.notify then w.notify standardSignal else w
  if e.cancel then w.cancelPending else w

/-- Has the due hooks of one side take effect; the first failure counts. -/
def fire (w : World) (store : StoreRef) (due : List Hook) (before : Bool) :
    Option StoreError × World :=
  (due.filter fun hook => hook.before == before).foldl
    (fun (failure, w) hook => (failure <|> hook.effects.fail, w.interfere store hook.effects))
    (none, w)

/-- The hooks that are due at a call of a method, which are used up. -/
def takeDue (w : World) (method : Method) : List Hook × World :=
  let counted := w.hooks.map fun hook =>
    if hook.method = method then { hook with ahead := hook.ahead - 1 } else hook
  (counted.filter fun hook => hook.ahead == 0,
    { w with hooks := counted.filter fun hook => hook.ahead != 0 })

/-- Counts a query against the deadline and cancels the token when it is reached. -/
def countQuery (w : World) (method : Method) : World :=
  match method, w.deadline with
  | .query, some deadline =>
    let w := { w with deadline := some { deadline with queries := deadline.queries - 1 } }
    if deadline.queries = 1 then w.cancel deadline.token else w
  | _, _ => w

def publish (w : World) (call : StoreCall) : World :=
  match call with
  | .commit batch =>
    let fresh := (batch.map fun write => write.id.key).filter w.issued.contains
    { w with published := fresh.foldl (fun known key =>
        if known.contains key then known else known ++ [key]) w.published }
  | _ => w

def recordCommit (w : World) (call : StoreCall) (applied : Bool) : World :=
  match call with
  | .commit batch => { w with commits := w.commits ++ [⟨batch, applied⟩] }
  | _ => w

/-- A call of a program, with the interference that is due. -/
def call (w : World) (store : StoreRef) (c : StoreCall) : Except StoreError c.Answer × World :=
  let w := (w.publish c).countQuery (methodOf c)
  let (due, w) := w.takeDue (methodOf c)
  match w.fire store due true with
  | (some e, w) => (.error e, w.recordCommit c false)
  | (none, w) =>
    let (answer, w) := w.apply store c
    let w := w.recordCommit c answer.isOk
    match w.fire store due false with
    | (some e, w) => (.error e, w)
    | (none, w) => (answer, w)

def answer (request : Request) : StateM World request.Reply :=
  match request with
  | .store target c => fun w => w.call target c
  | .now => fun w => (w.clock, w)
  | .freshText => fun w =>
    let text := Jobyard.freshText (w.issued.length + 1)
    (text, { w with issued := text :: w.issued })
  | .notify signal => fun w => ((), w.notify signal)
  | .generation signal => fun w => (w.generation signal, w)
  | .wait signal _ _ => fun w => (w.generation signal, w)
  | .isCancelled t => fun w => ((w.token t).cancelled, w)
  | .raise t => fun w => ((), w.raise t)
  | .watch t signal => fun w => ((), w.watch t signal)
  | .takeWatched t => fun w => w.takeWatched t
  | .perform action => fun w => ((), { w with performed := w.performed ++ [action] })

/-- Runs a program to its end. -/
def run {α : Type} (w : World) (p : Program α) : α × World := (p.run answer).run w

end World

end Jobyard.Simulation
