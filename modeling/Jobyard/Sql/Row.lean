import Jobyard.Json.Embedded
import Jobyard.Sql.Statement
import Jobyard.Store.Stored

/-!
Rows that a database server returns, and what is read from them. Columns are found by their names;
a value has to have the type that is asked for, and only an expiry may be null.
-/

namespace Jobyard.Sql

inductive Cell
  | null
  | text (value : String)
  | int (value : Int)
  | bool (value : Bool)
  | json (text : String)
  | time (micros : Int)
deriving DecidableEq

abbrev Row := List (String × Cell)

namespace Cell

def text? : Cell → Option String
  | .text value => some value
  | _ => none

def int? : Cell → Option Int
  | .int value => some value
  | _ => none

def bool? : Cell → Option Bool
  | .bool value => some value
  | _ => none

def json? : Cell → Option Json
  | .json written => Json.parse? written
  | _ => none

def expiry? : Cell → Option (Option Instant)
  | .null => some none
  | .time micros => (instantOfMicros? micros).map some
  | _ => none

end Cell

namespace Row

/-- Of columns with one name the last counts. -/
def read? {α : Type} (row : Row) (name : String) (read : Cell → Option α) : Option α :=
  (row.reverse.lookup name).bind read

/-- The columns of a document, before its identifier is read. -/
def columns? (row : Row) : Option (String × (DocId → Stored)) := do
  let id ← row.read? "id" Cell.text?
  let body ← row.read? "body" Cell.json?
  let etag ← row.read? "etag" Cell.int?
  let sequence ← row.read? "sequence" Cell.int?
  let expiresAt ← row.read? "expires_at" Cell.expiry?
  return (id, fun id =>
    { id, body, etag := unsigned64 etag, sequence := unsigned64 sequence, expiresAt })

def document (row : Row) : Except StoreError Stored :=
  match row.columns? with
  | none => .error .unreadableRow
  | some (text, stored) =>
    match DocId.parse text with
    | .ok id => .ok (stored id)
    | .error cause => .error (.model (.id cause))

/-- A count is never less than zero. -/
def total (row : Row) : Except StoreError Nat :=
  match row.read? "total" Cell.int? with
  | some n => .ok n.toNat
  | none => .error .unreadableCount

/-- The only column of an existence check. -/
def exists? (row : Row) : Option Bool := row.head?.bind fun column => column.2.bool?

end Row

end Jobyard.Sql
