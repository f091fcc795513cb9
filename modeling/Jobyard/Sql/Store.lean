import Jobyard.Program.Request
import Jobyard.Sql.Write

/-!
A document store kept by a database server, in one table. A batch is one transaction: it is rolled
back when a write or the commit fails, unless the connection is gone.
-/

namespace Jobyard.Sql

namespace Statement

def createTable : Statement where
  text := "CREATE TABLE IF NOT EXISTS documents ( id TEXT PRIMARY KEY, " ++
    "collection TEXT NOT NULL, body JSONB NOT NULL, etag BIGINT NOT NULL, " ++
    "sequence BIGSERIAL NOT NULL, expires_at TIMESTAMPTZ NULL )"
  params := []

def createSequenceIndex : Statement where
  text := "CREATE INDEX IF NOT EXISTS documents_collection_sequence_idx " ++
    "ON documents (collection, sequence)"
  params := []

def createExpiryIndex : Statement where
  text := "CREATE INDEX IF NOT EXISTS documents_expires_at_idx " ++
    "ON documents (expires_at) WHERE expires_at IS NOT NULL"
  params := []

def truncate : Statement where
  text := "TRUNCATE TABLE documents"
  params := []

def load (ids : List DocId) : Statement where
  text := "SELECT id, body, etag, sequence, expires_at FROM documents WHERE id = ANY($1)"
  params := [.texts (ids.map DocId.text)]

def purge (now : Instant) (limit : Nat) : Statement where
  text := "DELETE FROM documents WHERE id IN ( SELECT id FROM documents " ++
    "WHERE expires_at IS NOT NULL AND expires_at <= $1 LIMIT $2 )"
  params := [.ofInstant now, .int (signed64 limit)]

/-- A comparison with each of the values, joined by `OR`. -/
def alternatives (path : List String) : List Json → List Piece
  | [] => []
  | [value] => [.text "body #> ", .value (.texts path), .text " = ", .value (.json value.render)]
  | value :: rest =>
    .text "body #> " :: .value (.texts path) :: .text " = " :: .value (.json value.render) ::
      .text " OR " :: alternatives path rest

def filterPieces (f : Filter) : List Piece :=
  match f.condition with
  | .equals value =>
    [.text " AND body #> ", .value (.texts f.path), .text " = ", .value (.json value.render)]
  | .oneOf [] => [.text " AND FALSE"]
  | .oneOf values => .text " AND (" :: (alternatives f.path values ++ [.text ")"])
  | .isNull =>
    [.text " AND COALESCE(body #> ", .value (.texts f.path),
      .text ", 'null'::jsonb) = 'null'::jsonb"]
  | .notNull =>
    [.text " AND COALESCE(body #> ", .value (.texts f.path),
      .text ", 'null'::jsonb) <> 'null'::jsonb"]
  | .before time =>
    [.text " AND (body #>> ", .value (.texts f.path), .text ")::timestamptz < ",
      .value (.ofInstant time)]

def conditionPieces (q : Query) : List Piece :=
  .text " WHERE collection = " :: .value (.text q.collection) :: q.filters.flatMap filterPieces

def orderPieces : Order → List Piece
  | .oldestFirst => [.text " ORDER BY sequence ASC"]
  | .newestFirst => [.text " ORDER BY sequence DESC"]

def pagePieces (q : Query) : List Piece :=
  (match q.take with
    | none => []
    | some n => [.text " LIMIT ", .value (.int (signed64 n))]) ++
  if q.skip = 0 then [] else [.text " OFFSET ", .value (.int (signed64 q.skip))]

def query (q : Query) : Statement :=
  ofPieces (.text "SELECT id, body, etag, sequence, expires_at FROM documents" ::
    (conditionPieces q ++ orderPieces q.order ++ pagePieces q))

def count (q : Query) : Statement :=
  ofPieces (.text "SELECT COUNT(*) AS total FROM documents" :: conditionPieces q)

end Statement

namespace Talk

def ofExcept {α : Type} (result : Except StoreError α) : Talk α := ExceptT.mk (pure result)

def setup : Talk Unit := do
  discard (execute .setup .createTable)
  discard (execute .setup .createSequenceIndex)
  discard (execute .setup .createExpiryIndex)

def destroy : Talk Unit := discard (execute .destroy .truncate)

/-- Gives each found document away once, so that the same identifier further on gets none. -/
def hand (found : Dict DocId Stored) : List DocId → List (Option Stored)
  | [] => []
  | id :: rest => found.find? id :: hand (found.erase id) rest

def load (ids : List DocId) : Talk (List (Option Stored)) := do
  let rows ← fetch .load (.load ids)
  let documents ← ofExcept (rows.mapM Row.document)
  pure (hand (Dict.ofList (documents.map fun d => (d.id, d))) ids)

def query (q : Query) : Talk (List Stored) := do
  ofExcept q.validate
  let rows ← fetch .query (.query q)
  ofExcept (rows.mapM Row.document)

def count (q : Query) : Talk Nat := do
  ofExcept q.validate
  let row ← fetchOne .count (.count q)
  ofExcept row.total

def purge (now : Instant) (limit : Nat) : Talk Nat := execute .purge (.purge now limit)

def tell {α : Type} (request : Request) (next : request.Reply → Dialogue α) : Dialogue α :=
  .call request next

def rollBack (e : StoreError) : Dialogue (Except StoreError Unit) :=
  tell .rollback fun _ => .done (.error e)

def commit (batch : Batch) : Talk Unit :=
  if batch.isEmpty then pure ()
  else
    ExceptT.mk <| tell .begin fun begun =>
      match begun with
      | .error failure => .done (.error (failure.report .beginTransaction))
      | .ok _ => (WriteTalk.writeAll batch).run >>= fun written =>
        match written with
        | .error (.lost e) => rollBack e
        | .error (.broken e) => .done (.error e)
        | .ok _ => tell .commit fun ended =>
          match ended with
          | .ok _ => .done (.ok ())
          | .error .broken => .done (.error (.connection .commitTransaction))
          | .error (.refused code message) =>
            rollBack (.server .commitTransaction code message)

/-- The dialogue of each call of a store. -/
def call : (c : StoreCall) → Talk c.Answer
  | .setup => setup
  | .destroy => destroy
  | .load ids => load ids
  | .query q => query q
  | .count q => count q
  | .commit batch => commit batch
  | .purge now limit => purge now limit

end Talk

end Jobyard.Sql
