import Jobyard.Simulation.World
import Jobyard.Sql.Store

/-!
A database server that answers from a script, whatever it is asked, and keeps what was sent.
-/

namespace Jobyard.Simulation

open Jobyard.Sql

inductive ColumnType
  | text
  | int8
  | bool
  | jsonb
  | timestamptz
deriving DecidableEq

/-- All types by their names. -/
def ColumnType.all : List (String × ColumnType) :=
  [("text", .text), ("int8", .int8), ("bool", .bool), ("jsonb", .jsonb),
    ("timestamptz", .timestamptz)]

structure Column where
  name : String
  type : ColumnType
deriving DecidableEq

/-- A scripted value of a column. The text `$null` is null for every type, and a null is one but
for JSON; a value of another kind becomes some value of the type. -/
def Column.cell (c : Column) (value : Json) : Cell :=
  match value, c.type with
  | .str "$null", _ => .null
  | value, .jsonb => .json value.render
  | .null, _ => .null
  | .str text, .text => .text text
  | value, .text => .text value.render
  | .int n, .int8 => .int n
  | _, .int8 => .int 0
  | .bool b, .bool => .bool b
  | _, .bool => .bool false
  | .str text, .timestamptz =>
    .time (((timeNamed text).since epoch).nanos.tdiv 1000)
  | _, .timestamptz => .time 0

/-- The columns of each shape of answer. -/
structure Columns where
  documents : List Column
  count : List Column
  existence : List Column

def Columns.standard : Columns where
  documents := [⟨"id", .text⟩, ⟨"body", .jsonb⟩, ⟨"etag", .int8⟩, ⟨"sequence", .int8⟩,
    ⟨"expires_at", .timestamptz⟩]
  count := [⟨"total", .int8⟩]
  existence := [⟨"exists", .bool⟩]

/-- The columns that a statement asks for. -/
def Columns.ofStatement (c : Columns) (s : Statement) : List Column :=
  if s.text.startsWith "SELECT COUNT" then c.count
  else if s.text.startsWith "SELECT EXISTS" then c.existence
  else c.documents

inductive Reply
  /-- The number of changed rows, and rows; a statement takes what it asks for. -/
  | result (affected : Nat) (rows : List (List Json))
  | failure (f : Failure)

/-- What a server received. -/
inductive Sent
  | begin
  | commit
  | rollback
  | statement (s : Statement)

structure Peer where
  columns : Columns
  replies : List Reply
  beginFailure : Option Failure
  commitFailure : Option Failure
  sent : List Sent

namespace Peer

def start (columns : Columns) (replies : List Reply) : Peer :=
  { columns, replies, beginFailure := none, commitFailure := none, sent := [] }

def receive (p : Peer) (s : Sent) : Peer := { p with sent := p.sent ++ [s] }

def next (p : Peer) : Option Reply × Peer :=
  (p.replies.head?, { p with replies := p.replies.drop 1 })

def outcome : Option Failure → Except Failure Unit
  | none => .ok ()
  | some f => .error f

/-- One changed row when the script has ended. -/
def executed : Option Reply → Except Failure Nat
  | none => .ok 1
  | some (.result affected _) => .ok affected
  | some (.failure f) => .error f

/-- No rows when the script has ended. -/
def fetched (columns : List Column) : Option Reply → Except Failure (List Row)
  | none => .ok []
  | some (.result _ rows) =>
    .ok (rows.map fun row =>
      (columns.zip row).map fun entry => (entry.1.name, entry.1.cell entry.2))
  | some (.failure f) => .error f

def answer (request : Sql.Request) : StateM Peer request.Reply :=
  match request with
  | .begin => fun p => (outcome p.beginFailure, p.receive .begin)
  | .commit => fun p => (outcome p.commitFailure, p.receive .commit)
  | .rollback => fun p => ((), p.receive .rollback)
  | .execute s => fun p =>
    let (reply, p) := (p.receive (.statement s)).next
    (executed reply, p)
  | .fetch s => fun p =>
    let (reply, p) := (p.receive (.statement s)).next
    (fetched (p.columns.ofStatement s) reply, p)

/-- Holds a dialogue to its end. -/
def run {α : Type} (p : Peer) (talk : Talk α) : Except StoreError α × Peer :=
  (Interaction.run answer talk.run).run p

/-- A world whose only store is kept by the server. -/
structure Link where
  peer : Peer
  world : World

/-- Calls of stores go to the server, all other requests to the world. -/
def Link.answer (request : Jobyard.Request) : StateM Link request.Reply :=
  match request with
  | .store _ c => fun l =>
    let (reply, peer) := l.peer.run (Talk.call c)
    (reply, { l with peer })
  | request => fun l =>
    let (reply, world) := (World.answer request).run l.world
    (reply, { l with world })

/-- Runs a program whose store is kept by the server. -/
def Link.run {α : Type} (l : Link) (p : Program α) : α × Link :=
  (Interaction.run Link.answer p).run l

end Peer

end Jobyard.Simulation
