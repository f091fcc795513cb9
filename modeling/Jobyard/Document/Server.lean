import Jobyard.Document.Basic
import Jobyard.Document.Record

/-!
Servers: what a worker process says about itself, and when it was last heard of.
-/

namespace Jobyard

structure ServerData where
  workerCount : Nat
  queues : List String
  startedAt : Option Instant
deriving DecidableEq, Inhabited

namespace ServerData

def blank : ServerData := ⟨0, [], none⟩

/-- The greatest number of workers. -/
def workerLimit : Nat := 0xffffffff

def encode (d : ServerData) : Json :=
  .object [("worker_count", .int d.workerCount), ("queues", .ofTexts d.queues),
    ("started_at", .ofOption .ofInstant d.startedAt)]

def decode? (value : Json) : Option ServerData := do
  let r ← Record.ofJson? ["worker_count", "queues", "started_at"] value
  return {
    workerCount := ← r.required "worker_count" (Json.natWithin? workerLimit)
    queues := ← r.defaulted "queues" [] (Json.listOf? Json.str?)
    startedAt := ← r.optional "started_at" Json.instant? }

end ServerData

structure Server where
  lastHeartbeat : Instant
  data : ServerData
deriving DecidableEq, Inhabited

instance : FindOrCreate Server where
  collection := "servers"
  encode s := .object [("last_heartbeat", .ofInstant s.lastHeartbeat), ("data", s.data.encode)]
  decode? value := do
    let r ← Record.ofJson? ["last_heartbeat", "data"] value
    return {
      lastHeartbeat := ← r.required "last_heartbeat" Json.instant?
      data := ← r.defaulted "data" .blank ServerData.decode? }
  blank := ⟨.origin, .blank⟩

end Jobyard
