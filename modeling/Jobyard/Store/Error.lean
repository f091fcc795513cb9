import Jobyard.Error

/-!
What a write expects of the document that it changes, and the failures of stores. Only a failed
expectation may go away when the unit of work is built again.
-/

namespace Jobyard

/-- The version of a document that a write expects. -/
inductive Expected
  | absent
  | exact (etag : Nat)
  | any
deriving DecidableEq

namespace Expected

/-- Whether the version that is there, if any, is expected. -/
def accepts : Expected → Option Nat → Bool
  | .any, _ => true
  | .absent, none => true
  | .exact etag, some found => etag == found
  | _, _ => false

def text : Expected → String
  | .absent => "Absent"
  | .exact etag => "Exact(" ++ toString etag ++ ")"
  | .any => "Any"

/-- The text of a version that was found. -/
def foundText : Option Nat → String
  | none => "None"
  | some etag => "Some(" ++ toString etag ++ ")"

end Expected

inductive StoreErrorKind
  | concurrency
  | serialization
  | invalidQuery
  | notFound
  | backend
deriving DecidableEq

/-- All kinds by their names. -/
def StoreErrorKind.all : List (String × StoreErrorKind) :=
  [("Concurrency", .concurrency), ("Serialization", .serialization),
    ("InvalidQuery", .invalidQuery), ("NotFound", .notFound), ("Backend", .backend)]

/-- What a client was doing when its database server failed it. -/
inductive ServerCall
  | connect
  | setup
  | destroy
  | load
  | query
  | count
  | beginTransaction
  | commitTransaction
  | purge
  | put
  | delete
  | increment
deriving DecidableEq

def ServerCall.text : ServerCall → String
  | .connect => "connect"
  | .setup => "setup"
  | .destroy => "destroy"
  | .load => "load"
  | .query => "query"
  | .count => "count"
  | .beginTransaction => "begin_transaction"
  | .commitTransaction => "commit_transaction"
  | .purge => "purge_expired"
  | .put => "put"
  | .delete => "delete"
  | .increment => "increment"

inductive StoreError
  /-- A guarded write found another version than expected. -/
  | putMismatch (id : DocId) (expected : Expected) (found : Option Nat)
  | deleteMismatch (id : DocId) (expected : Expected) (found : Option Nat)
  /-- A guarded write changed no row of a database. -/
  | putRefused (id : DocId) (expected : Expected)
  | deleteRefused (id : DocId) (etag : Nat)
  | deletePresent (id : DocId)
  /-- A stored body is no document of the wanted kind. -/
  | document (id : DocId) (cause : ModelError)
  | model (cause : ModelError)
  | notAnObject
  | notAnInteger (field : String)
  | emptyCollection
  | malformedPath (path : List String)
  | scoreRange
  | missing (id : DocId)
  /-- A database server answered with an error. -/
  | server (call : ServerCall) (code message : String)
  /-- There was no usable answer of the server. -/
  | connection (call : ServerCall)
  | unreadableRow
  | unreadableCount
  /-- A failure that somebody else names. -/
  | reported (kind : StoreErrorKind) (text : String)
deriving DecidableEq

namespace StoreError

/-- Codes of servers for a lost race: a key taken twice, or a failed serialization. -/
def raceCodes : List String := ["23505", "40001"]

def kind : StoreError → StoreErrorKind
  | .putMismatch .. => .concurrency
  | .deleteMismatch .. => .concurrency
  | .putRefused .. => .concurrency
  | .deleteRefused .. => .concurrency
  | .deletePresent .. => .concurrency
  | .document .. => .serialization
  | .model _ => .serialization
  | .notAnObject => .serialization
  | .notAnInteger _ => .serialization
  | .emptyCollection => .invalidQuery
  | .malformedPath _ => .invalidQuery
  | .scoreRange => .invalidQuery
  | .missing _ => .notFound
  | .server _ code _ => if raceCodes.contains code then .concurrency else .backend
  | .connection _ => .backend
  | .unreadableRow => .backend
  | .unreadableCount => .backend
  | .reported kind _ => kind

def isRetryable (e : StoreError) : Bool := e.kind = .concurrency

/-- What went wrong, without the kind. -/
def detail : StoreError → String
  | .putMismatch id expected found =>
    "put '" ++ id.text ++ "': expected " ++ expected.text ++ ", found " ++
      Expected.foundText found
  | .deleteMismatch id expected found =>
    "delete '" ++ id.text ++ "': expected " ++ expected.text ++ ", found " ++
      Expected.foundText found
  | .putRefused id expected => "put '" ++ id.text ++ "': expected " ++ expected.text
  | .deleteRefused id etag => "delete '" ++ id.text ++ "': expected etag " ++ toString etag
  | .deletePresent id => "delete '" ++ id.text ++ "': expected document to be absent"
  | .document id cause => "document '" ++ id.text ++ "': " ++ cause.message
  | .model cause => cause.message
  | .notAnObject => "increment target is not an object"
  | .notAnInteger field => "field '" ++ field ++ "' is not an integer"
  | .emptyCollection => "collection must not be empty"
  | .malformedPath path => "malformed filter path '" ++ ".".intercalate path ++ "'"
  | .scoreRange => "to_score must not be lower than from_score"
  | .missing id => id.text
  | .server call _ message => "database error in " ++ call.text ++ ": " ++ message
  | .connection call => "sqlx error in " ++ call.text ++ ": <sqlx>"
  | .unreadableRow => "failed to decode document row: <sqlx>"
  | .unreadableCount => "failed to read count: <sqlx>"
  | .reported _ text => text

end StoreError

def StoreErrorKind.opening : StoreErrorKind → String
  | .concurrency => "optimistic concurrency check failed: "
  | .serialization => "serialization failed: "
  | .invalidQuery => "invalid query: "
  | .notFound => "document not found: "
  | .backend => "storage backend error: "

def StoreError.message (e : StoreError) : String := e.kind.opening ++ e.detail

end Jobyard
