import Jobyard.Document.Basic
import Jobyard.Store.Error
import Jobyard.Time.Instant

/-!
Documents as stores hold them, and the writes that change them.
-/

namespace Jobyard

/-- A document with the version of its last write and the number of its creation. A document past
its expiry stays until it is purged. -/
structure Stored where
  id : DocId
  body : Json
  etag : Nat
  sequence : Nat
  expiresAt : Option Instant

def Stored.decode (α : Type) [Document α] (d : Stored) : Except StoreError α :=
  match Document.decode? d.body with
  | some document => .ok document
  | none => .error (.document d.id .shape)

inductive Write
  /-- Replaces or creates a whole document. -/
  | put (id : DocId) (body : Json) (expiresAt : Option Instant) (expected : Expected)
  | delete (id : DocId) (expected : Expected)
  /-- Adds to a whole number inside a document, which is created when missing. An expiry replaces
  the present one; without one the present one stays. -/
  | increment (id : DocId) (field : String) (delta : Int) (expiresAt : Option Instant)

def Write.id : Write → DocId
  | .put id .. => id
  | .delete id _ => id
  | .increment id .. => id

/-- Writes that take effect together or not at all. -/
abbrev Batch := List Write

end Jobyard
