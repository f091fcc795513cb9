import Jobyard.Session.Basic

/-!
The operations of a session that ask its store. A failure leaves the session as far as it got.
-/

namespace Jobyard

/-- Work on a session that may end with the failure of its store. -/
abbrev Work := ExceptT StoreError (StateT Session Program)

namespace Work

variable {α : Type}

def lift (p : Program α) : Work α := ExceptT.lift (StateT.lift p)

def askStore (call : StoreCall) : Work call.Answer := do
  let s ← get
  ExceptT.mk (StateT.lift (Program.ask (.store s.store call)))

def now : Work Instant := lift (Program.ask .now)

/-- Asks the store for the documents that are not tracked yet, in one call. -/
def ensureLoaded (ids : List DocId) : Work Unit := do
  let s ← get
  let missing := ids.filter fun id => !s.isTracked id
  if missing.isEmpty then return
  let loaded ← askStore (.load missing)
  modify fun s => s.absorb (missing.zip loaded)

/-- The document as the session sees it. -/
def view (α : Type) [Document α] (id : DocId) : Work (Option α) := do
  match (← get).find? id with
  | some t => ExceptT.mk (pure (t.decode α id))
  | none => pure none

def load (α : Type) [Document α] (id : DocId) : Work (Option α) := do
  ensureLoaded [id]
  view α id

/-- Loads several documents with at most one call of the store. -/
def loadMany (α : Type) [Document α] (ids : List DocId) : Work (List (Option α)) := do
  ensureLoaded ids
  ids.mapM (view α)

def save [Document α] (id : DocId) (document : α) : Work Unit :=
  modify fun s => s.put id (Document.encode document)

/-- Loads a document; a missing one becomes the blank one in this unit of work. -/
def loadOrBlank (α : Type) [FindOrCreate α] (id : DocId) : Work α := do
  match ← load α id with
  | some document => pure document
  | none =>
    let created : α := FindOrCreate.blank
    save id created
    pure created

/-- Follows found documents one after the other, up to the first that cannot be read. Those
deleted in the session are passed over. -/
def gather (α : Type) [Document α] : List Stored → Work (List (DocId × α))
  | [] => pure []
  | d :: rest => do
    modify fun s => s.observe d
    let seen ← view α d.id
    let others ← gather α rest
    match seen with
    | some document => pure ((d.id, document) :: others)
    | none => pure others

def query (α : Type) [Document α] (q : Query) : Work (List (DocId × α)) := do
  gather α (← askStore (.query q))

def count (q : Query) : Work Nat := askStore (.count q)

def delete (id : DocId) : Work Unit := modify fun s => s.delete id

def expiry (id : DocId) : Work (Option Instant) := do
  ensureLoaded [id]
  match (← get).find? id with
  | some t => pure (if t.isPresent then t.expiresAt else none)
  | none => pure none

/-- Changes the expiry of a document; false if there is none. -/
def updateExpiry (id : DocId) (expiresAt : Option Instant) : Work Bool := do
  ensureLoaded [id]
  match (← get).find? id with
  | some t =>
    if t.isPresent then
      modify fun s => s.track id { t with expiresAt, status := .dirty }
      pure true
    else pure false
  | none => pure false

def setExpiry (id : DocId) (time : Instant) : Work Bool := updateExpiry id (some time)

def removeExpiry (id : DocId) : Work Bool := updateExpiry id none

/-- Sends all changes as one batch. After a success the session is as new; after a failure it
keeps its changes. -/
def saveChanges : Work Unit := do
  let batch := (← get).batch
  if batch.isEmpty then return
  askStore (.commit batch)
  modify Session.cleared

/-- The work in a session of its own. -/
def alone (store : StoreRef) (work : Work α) : Action α :=
  ExceptT.mk do
    let (result, _) ← (work.run).run (Session.empty store true)
    pure result

end Work

end Jobyard
