import Jobyard.Program.Interaction
import Jobyard.Sql.Row

/-!
Dialogues with a database server.
-/

namespace Jobyard.Sql

/-- Why a server did not do as told. -/
inductive Failure
  | refused (code message : String)
  /-- There was no answer, or none that could be understood. -/
  | broken
deriving DecidableEq

inductive Request
  | begin
  | commit
  | rollback
  /-- A statement of which only the number of changed rows counts. -/
  | execute (statement : Statement)
  | fetch (statement : Statement)

abbrev Request.Reply : Request → Type
  | .begin => Except Failure Unit
  | .commit => Except Failure Unit
  | .rollback => Unit
  | .execute _ => Except Failure Nat
  | .fetch _ => Except Failure (List Row)

abbrev spoken : Interface := ⟨Request, Request.Reply⟩

abbrev Dialogue := Interaction spoken

def Failure.report (call : ServerCall) : Failure → StoreError
  | .refused code message => .server call code message
  | .broken => .connection call

/-- Codes of servers that are about to take connections again. -/
def passingCodes : List String := ["53300", "57P03"]

/-- What an attempt to connect ends with. One that is turned away for a passing reason is made
again until the time is up. -/
def Failure.atConnect : Failure → StoreError
  | .refused code message =>
    if passingCodes.contains code then .connection .connect else .server .connect code message
  | .broken => .connection .connect

/-- A dialogue that may end with the failure of the store. -/
abbrev Talk := ExceptT StoreError Dialogue

namespace Talk

def execute (call : ServerCall) (statement : Statement) : Talk Nat :=
  ExceptT.mk do
    match ← (Interaction.call (.execute statement) .done : Dialogue (Except Failure Nat)) with
    | .ok affected => pure (.ok affected)
    | .error failure => pure (.error (failure.report call))

def fetch (call : ServerCall) (statement : Statement) : Talk (List Row) :=
  ExceptT.mk do
    match ← (Interaction.call (.fetch statement) .done : Dialogue (Except Failure (List Row))) with
    | .ok rows => pure (.ok rows)
    | .error failure => pure (.error (failure.report call))

/-- The first of the rows, of which there has to be one. -/
def fetchOne (call : ServerCall) (statement : Statement) : Talk Row := do
  match ← fetch call statement with
  | row :: _ => pure row
  | [] => throw (.connection call)

end Talk

end Jobyard.Sql
