import Jobyard.Connection.Basic
import Jobyard.Document.Server

/-!
Servers: they announce themselves, send heartbeats, and are removed, by themselves or after a
silence.
-/

namespace Jobyard.Connection

def announceServer (c : Connection) (server : String) (data : ServerData) : Action Unit :=
  c.alone do
    let id := Document.idFor Server server
    discard (Work.loadOrBlank Server id)
    let now ← Work.now
    Work.save id (Server.mk now data)
    Work.saveChanges

/-- Records a sign of life; false if the server is not known. -/
def heartbeat (c : Connection) (server : String) : Action Bool :=
  c.alone do
    let id := Document.idFor Server server
    match ← Work.load Server id with
    | none => pure false
    | some s =>
      let now ← Work.now
      Work.save id { s with lastHeartbeat := now }
      Work.saveChanges
      pure true

def removeServer (c : Connection) (server : String) : Action Unit :=
  c.alone do
    Work.delete (Document.idFor Server server)
    Work.saveChanges

/-- Removes servers last heard of longer ago than the timeout, and says how many. -/
def removeTimedOutServers (c : Connection) (timeout : Duration) : Action Nat := do
  let now ← Action.now
  let cutoff := (now.minus? timeout.toSpan).getD .least
  c.alone do
    let servers ← Work.query Server (Query.of Server)
    let silent := servers.filter fun entry => entry.2.lastHeartbeat.before cutoff
    for entry in silent do
      Work.delete entry.1
    Work.saveChanges
    pure silent.length

end Jobyard.Connection
