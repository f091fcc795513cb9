import Jobyard.Program.Basic

/-!
Units of work over a store. A session keeps every document that it touched, in the order of the
first touch, with the version that it saw in the store. What is to change is sent as one batch.
-/

namespace Jobyard

inductive Status
  | unchanged
  | dirty
  | deleted
deriving DecidableEq

/-- A document as a session sees it. -/
structure Tracked where
  /-- None while there is no such document. -/
  body : Option Json
  /-- The version seen in the store, none if there was no document. -/
  etag : Option Nat
  /-- Whether the store was asked for the document. -/
  known : Bool
  expiresAt : Option Instant
  status : Status

namespace Tracked

def ofStored (d : Stored) : Tracked := ⟨some d.body, some d.etag, true, d.expiresAt, .unchanged⟩

/-- A document that the store does not have. -/
def absent : Tracked := ⟨none, none, true, none, .unchanged⟩

def ofLoaded : Option Stored → Tracked
  | some d => ofStored d
  | none => absent

def isPresent (t : Tracked) : Bool := t.body.isSome && t.status != .deleted

def decode (α : Type) [Document α] (id : DocId) (t : Tracked) : Except StoreError (Option α) :=
  match t.status, t.body with
  | .deleted, _ => .ok none
  | _, none => .ok none
  | _, some body =>
    match Document.decode? body with
    | some document => .ok (some document)
    | none => .error (.document id .shape)

/-- The write that brings the store to the session's view, if one is needed. -/
def write? (optimistic : Bool) (id : DocId) (t : Tracked) : Option Write :=
  match t.status with
  | .unchanged => none
  | .dirty =>
    t.body.map fun body =>
      let expected : Expected :=
        match optimistic, t.etag with
        | true, some etag => .exact etag
        | true, none => .absent
        | false, _ => .any
      .put id body t.expiresAt expected
  | .deleted =>
    match optimistic, t.known, t.etag with
    | _, true, none => none
    | true, true, some etag => some (.delete id (.exact etag))
    | _, _, _ => some (.delete id .any)

end Tracked

/-- One list stands both for the map of the tracked documents and for the order of their first
touches: `track` replaces a document at its place or puts it at the end. That a document is tracked
exactly if it is in the order holds by this representation. -/
structure Session where
  store : StoreRef
  tracked : List (DocId × Tracked)
  deferred : List Write
  optimistic : Bool

namespace Session

def empty (store : StoreRef) (optimistic : Bool) : Session :=
  { store, tracked := [], deferred := [], optimistic }

def find? (s : Session) (id : DocId) : Option Tracked := s.tracked.lookup id

def isTracked (s : Session) (id : DocId) : Bool := (s.find? id).isSome

/-- Replaces what is known of a document, or adds a first touch. -/
def place (id : DocId) (t : Tracked) : List (DocId × Tracked) → List (DocId × Tracked)
  | [] => [(id, t)]
  | (other, u) :: rest => if other = id then (id, t) :: rest else (other, u) :: place id t rest

def track (s : Session) (id : DocId) (t : Tracked) : Session :=
  { s with tracked := place id t s.tracked }

def put (s : Session) (id : DocId) (body : Json) : Session :=
  match s.find? id with
  | some t => s.track id { t with body := some body, status := .dirty }
  | none => s.track id ⟨some body, none, false, none, .dirty⟩

/-- Marks a document for deletion, whether the store was asked for it or not. -/
def delete (s : Session) (id : DocId) : Session :=
  match s.find? id with
  | some t => s.track id { t with status := .deleted }
  | none => s.track id ⟨none, none, false, none, .deleted⟩

/-- Whether saving would create the document. -/
def isNew (s : Session) (id : DocId) : Bool :=
  match s.find? id with
  | some t => t.etag.isNone && t.isPresent
  | none => false

/-- Has a write done together with the next save. -/
def defer (s : Session) (w : Write) : Session := { s with deferred := s.deferred ++ [w] }

def hasChanges (s : Session) : Bool :=
  !s.deferred.isEmpty || s.tracked.any fun entry => entry.2.status != .unchanged

/-- Writes of documents in the order of their first touch, then the deferred ones. -/
def batch (s : Session) : Batch :=
  (s.tracked.filterMap fun entry => entry.2.write? s.optimistic entry.1) ++ s.deferred

def cleared (s : Session) : Session := { s with tracked := [], deferred := [] }

/-- Follows the documents that the store returned for identifiers not tracked before. -/
def absorb (s : Session) (loaded : List (DocId × Option Stored)) : Session :=
  loaded.foldl (fun s entry => s.track entry.1 (.ofLoaded entry.2)) s

/-- Follows a document found by a query; what the session already knows of it stays. -/
def observe (s : Session) (d : Stored) : Session :=
  if s.isTracked d.id then s else s.track d.id (.ofStored d)

/-- A summary for messages to people. -/
def summary (s : Session) : String :=
  "DocumentSession \x7b tracked: " ++ toString s.tracked.length ++ ", deferred: " ++
    toString s.deferred.length ++ ", optimistic: " ++ toString s.optimistic ++ " \x7d"

end Session

end Jobyard
