import Jobyard.Json.Printer
import Jobyard.Sql.Dialogue

/-!
The statement of each write, and what its answer means. A guarded write that changes no row has
lost a race.
-/

namespace Jobyard.Sql

/-- One write inside a transaction, with the failure of the connection kept apart. -/
inductive WriteFailure
  | lost (e : StoreError)
  /-- Nothing can be rolled back when the connection broke. -/
  | broken (e : StoreError)
deriving DecidableEq

def WriteFailure.cause : WriteFailure → StoreError
  | .lost e => e
  | .broken e => e

abbrev WriteTalk := ExceptT WriteFailure Dialogue

namespace WriteTalk

def fail (call : ServerCall) : Failure → WriteFailure
  | .refused code message => .lost (.server call code message)
  | .broken => .broken (.connection call)

def execute (call : ServerCall) (statement : Statement) : WriteTalk Nat :=
  ExceptT.mk do
    match ← (Interaction.call (.execute statement) .done : Dialogue (Except Failure Nat)) with
    | .ok affected => pure (.ok affected)
    | .error failure => pure (.error (fail call failure))

def fetch (call : ServerCall) (statement : Statement) : WriteTalk (List Row) :=
  ExceptT.mk do
    match ← (Interaction.call (.fetch statement) .done : Dialogue (Except Failure (List Row))) with
    | .ok rows => pure (.ok rows)
    | .error failure => pure (.error (fail call failure))

end WriteTalk

namespace Statement

def insertNew (id : DocId) (body : Json) (expiresAt : Option Instant) : Statement where
  text := "INSERT INTO documents (id, collection, body, etag, expires_at) " ++
    "VALUES ($1, $2, $3, 1, $4) ON CONFLICT (id) DO NOTHING"
  params := [.text id.text, .text id.collection, .json body.render, .ofExpiry expiresAt]

def update (id : DocId) (body : Json) (expiresAt : Option Instant) (etag : Nat) : Statement where
  text := "UPDATE documents SET body = $2, etag = etag + 1, expires_at = $3 " ++
    "WHERE id = $1 AND etag = $4"
  params := [.text id.text, .json body.render, .ofExpiry expiresAt, .int (signed64 etag)]

def upsert (id : DocId) (body : Json) (expiresAt : Option Instant) : Statement where
  text := "INSERT INTO documents (id, collection, body, etag, expires_at) " ++
    "VALUES ($1, $2, $3, 1, $4) ON CONFLICT (id) DO UPDATE SET body = EXCLUDED.body, " ++
    "etag = documents.etag + 1, expires_at = EXCLUDED.expires_at"
  params := [.text id.text, .text id.collection, .json body.render, .ofExpiry expiresAt]

def deleteAny (id : DocId) : Statement where
  text := "DELETE FROM documents WHERE id = $1"
  params := [.text id.text]

def deleteExact (id : DocId) (etag : Nat) : Statement where
  text := "DELETE FROM documents WHERE id = $1 AND etag = $2"
  params := [.text id.text, .int (signed64 etag)]

def existence (id : DocId) : Statement where
  text := "SELECT EXISTS (SELECT 1 FROM documents WHERE id = $1)"
  params := [.text id.text]

def increment (id : DocId) (field : String) (delta : Int) (expiresAt : Option Instant) :
    Statement where
  text := "INSERT INTO documents (id, collection, body, etag, expires_at) " ++
    "VALUES ($1, $2, jsonb_build_object($3::text, $4::bigint), 1, $5) " ++
    "ON CONFLICT (id) DO UPDATE SET body = jsonb_set( documents.body, ARRAY[$3::text], " ++
    "to_jsonb(COALESCE((documents.body ->> $3::text)::bigint, 0) + $4::bigint) ), " ++
    "etag = documents.etag + 1, expires_at = COALESCE($5, documents.expires_at)"
  params := [.text id.text, .text id.collection, .text field, .int delta, .ofExpiry expiresAt]

end Statement

namespace WriteTalk

/-- The statement of a replacement or creation under an expectation. -/
def putStatement (id : DocId) (body : Json) (expiresAt : Option Instant) : Expected → Statement
  | .absent => .insertNew id body expiresAt
  | .exact etag => .update id body expiresAt etag
  | .any => .upsert id body expiresAt

def write : Write → WriteTalk Unit
  | .put id body expiresAt expected => do
    let affected ← execute .put (putStatement id body expiresAt expected)
    if affected = 0 then throw (.lost (.putRefused id expected))
  | .delete id .any => discard (execute .delete (.deleteAny id))
  | .delete id (.exact etag) => do
    let affected ← execute .delete (.deleteExact id etag)
    if affected = 0 then throw (.lost (.deleteRefused id etag))
  | .delete id .absent => do
    match ← fetch .delete (.existence id) with
    | [] => throw (.lost (.connection .delete))
    | row :: _ =>
      match Row.exists? row with
      | none => throw (.lost (.connection .delete))
      | some true => throw (.lost (.deletePresent id))
      | some false => pure ()
  | .increment id field delta expiresAt =>
    discard (execute .increment (.increment id field delta expiresAt))

def writeAll : Batch → WriteTalk Unit
  | [] => pure ()
  | w :: rest => do
    write w
    writeAll rest

end WriteTalk

end Jobyard.Sql
