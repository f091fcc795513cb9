import Jobyard.Connection.Basic
import Jobyard.Monitoring.Basic
import Jobyard.Reaper

/-!
Storages: one store with its options, its standard queue and the queues routed elsewhere. From a
storage come connections, transactions, monitoring and the reaper.
-/

namespace Jobyard

structure Storage where
  store : StoreRef
  options : Options
  routing : Routing

namespace Storage

/-- A storage over a store that is there. The standard queue serves every name. -/
def make (store : StoreRef) (signal : SignalRef) (o : Options) : Except OptionsError Storage := do
  o.validate
  .ok { store, options := o, routing := .single (.ofOptions store signal o) }

/-- A storage whose store is set up first. -/
def openAt (store : StoreRef) (signal : SignalRef) (o : Options) :
    Except OptionsError (Action Storage) := do
  let storage ← make store signal o
  .ok do
    Action.store store .setup
    pure storage

/-- Routes names to another queue. -/
def withQueue (s : Storage) (queue : JobQueue) (names : List String) : Storage :=
  { s with routing := s.routing.add queue names }

def connection (s : Storage) : Connection := ⟨s.store, s.routing⟩

def transaction (s : Storage) : Transaction := .start s.store s.routing

def monitoring (s : Storage) : Monitoring := ⟨s.store, s.routing⟩

def reaper (s : Storage) : Reaper := .ofOptions s.store s.options

end Storage

end Jobyard
