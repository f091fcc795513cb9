import Jobyard.Json.Access
import Jobyard.Store.Query

/-!
A store in memory. A batch is worked out on a draft that holds the documents it touches; the draft
reaches the store only when every write of the batch went well.
-/

namespace Jobyard

structure Memory where
  documents : Dict DocId Stored
  /-- The number given to the document created last. -/
  lastSequence : Nat

namespace Memory

def empty : Memory := ⟨∅, 0⟩

instance : Inhabited Memory := ⟨empty⟩

def find? (m : Memory) (id : DocId) : Option Stored := m.documents.find? id

/-- Adds to a whole number of an object; a missing or null member counts as zero. -/
def addTo (body : Json) (field : String) (delta : Int) : Except StoreError Json :=
  match body with
  | .obj members =>
    match Entries.find? field members with
    | none => .ok (.obj (Entries.insert field (.int delta) members))
    | some .null => .ok (.obj (Entries.insert field (.int delta) members))
    | some value =>
      match value.int64? with
      | some n => .ok (.obj (Entries.insert field (.int (n + delta)) members))
      | none => .error (.notAnInteger field)
  | _ => .error .notAnObject

/-- What a write makes of the document it addresses, and the number given last afterwards. -/
def outcome (write : Write) (current : Option Stored) (lastSequence : Nat) :
    Except StoreError (Option Stored × Nat) :=
  match write with
  | .put id body expiresAt expected =>
    if expected.accepts (current.map (·.etag)) then
      match current with
      | some d => .ok (some { d with body, etag := d.etag + 1, expiresAt }, lastSequence)
      | none =>
        .ok (some { id, body, etag := 1, sequence := lastSequence + 1, expiresAt },
          lastSequence + 1)
    else .error (.putMismatch id expected (current.map (·.etag)))
  | .delete id expected =>
    if expected.accepts (current.map (·.etag)) then .ok (none, lastSequence)
    else .error (.deleteMismatch id expected (current.map (·.etag)))
  | .increment id field delta expiresAt =>
    match current with
    | some d => do
      let body ← addTo d.body field delta
      .ok (some { d with body, etag := d.etag + 1, expiresAt := expiresAt <|> d.expiresAt },
        lastSequence)
    | none => do
      let body ← addTo (.obj []) field delta
      .ok (some { id, body, etag := 1, sequence := lastSequence + 1, expiresAt },
        lastSequence + 1)

/-- The touched documents as they will be, `none` for those that will be gone. -/
structure Draft where
  touched : Dict DocId (Option Stored)
  lastSequence : Nat

namespace Draft

def current (draft : Draft) (m : Memory) (id : DocId) : Option Stored :=
  match draft.touched.find? id with
  | some document => document
  | none => m.find? id

def write (m : Memory) (draft : Draft) (w : Write) : Except StoreError Draft := do
  let (document, lastSequence) ← outcome w (draft.current m w.id) draft.lastSequence
  .ok ⟨draft.touched.insert w.id document, lastSequence⟩

end Draft

def settle (documents : Dict DocId Stored) (change : DocId × Option Stored) : Dict DocId Stored :=
  match change.2 with
  | some document => documents.insert change.1 document
  | none => documents.erase change.1

def merge (m : Memory) (draft : Draft) : Memory :=
  ⟨draft.touched.entries.foldl settle m.documents, draft.lastSequence⟩

def commit (m : Memory) (batch : Batch) : Except StoreError Memory := do
  let draft ← batch.foldlM (Draft.write m) ⟨∅, m.lastSequence⟩
  .ok (m.merge draft)

def load (m : Memory) (ids : List DocId) : List (Option Stored) := ids.map m.find?

def accepted (m : Memory) (q : Query) : List Stored := m.documents.values.filter q.accepts

def query (m : Memory) (q : Query) : Except StoreError (List Stored) := do
  q.validate
  .ok (q.finish (m.accepted q))

def count (m : Memory) (q : Query) : Except StoreError Nat := do
  q.validate
  .ok (m.accepted q).length

def isExpired (now : Instant) (d : Stored) : Bool :=
  match d.expiresAt with
  | some expiry => expiry.atOrBefore now
  | none => false

/-- Removes expired documents, at most `limit` of them, and says how many. -/
def purge (m : Memory) (now : Instant) (limit : Nat) : Memory × Nat :=
  let expired := (m.documents.values.filter (isExpired now)).take limit
  ({ m with documents := (expired.map (·.id)).foldl Dict.erase m.documents }, expired.length)

/-- Removes all documents; numbers go on where they were. -/
def clear (m : Memory) : Memory := { m with documents := ∅ }

def size (m : Memory) : Nat := m.documents.size

end Memory

end Jobyard
