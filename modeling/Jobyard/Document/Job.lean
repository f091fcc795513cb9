import Jobyard.Document.Basic
import Jobyard.Document.Record
import Jobyard.Json.Embedded
import Jobyard.Json.Printer
import Jobyard.Text.Caseless

/-!
Jobs: what to call with which arguments, named parameters, the current state and the states
before it.
-/

namespace Jobyard

/-- A call of a method, with the types of its parameters. -/
structure Invocation where
  typeName : String
  method : String
  parameterTypes : List String
  arguments : List Json
deriving Inhabited

/-- A call as it is stored, both lists as JSON texts. -/
structure InvocationData where
  typeName : String
  method : String
  parameterTypes : String
  arguments : String
deriving DecidableEq, Inhabited

namespace InvocationData

def blank : InvocationData := ⟨"", "", "", ""⟩

def ofInvocation (i : Invocation) : InvocationData where
  typeName := i.typeName
  method := i.method
  parameterTypes := (Json.ofTexts i.parameterTypes).render
  arguments := (Json.arr i.arguments).render

/-- Reads the call back. It needs a type, a method and one argument for each parameter. -/
def decode (d : InvocationData) : Except ModelError Invocation :=
  if d.typeName = "" ∨ d.method = "" then .error .namelessInvocation
  else
    match (Json.parsePlain? d.parameterTypes).bind (Json.listOf? Json.str?),
        Json.parseItems? d.arguments with
    | some types, some arguments =>
      if types.length = arguments.length then
        .ok ⟨d.typeName, d.method, types, arguments⟩
      else .error (.argumentCount types.length arguments.length)
    | _, _ => .error .shape

def encode (d : InvocationData) : Json :=
  .object [("type_name", .str d.typeName), ("method", .str d.method),
    ("parameter_types", .str d.parameterTypes), ("arguments", .str d.arguments)]

def decode? (value : Json) : Option InvocationData := do
  let r ← Record.ofJson? ["type_name", "method", "parameter_types", "arguments"] value
  return {
    typeName := ← r.required "type_name" Json.str?
    method := ← r.required "method" Json.str?
    parameterTypes := ← r.required "parameter_types" Json.str?
    arguments := ← r.required "arguments" Json.str? }

end InvocationData

/-- A state that a job has or is given. -/
structure JobState where
  name : String
  reason : Option String
  data : Dict String String
deriving DecidableEq, Inhabited

namespace JobState

/-- A state with nothing but a name. -/
def named (name : String) : JobState := ⟨name, none, ∅⟩

def withData (s : JobState) (key value : String) : JobState :=
  { s with data := s.data.insert key value }

/-- The value of the first key that agrees up to the case of its letters. -/
def get? (s : JobState) (key : String) : Option String :=
  (s.data.entries.find? fun entry => Text.sameLetters entry.1 key).map (·.2)

def encode (s : JobState) : Json :=
  .object (("name", .str s.name) :: ("data", .ofDict .str s.data) ::
    Json.memberIfSome "reason" .str s.reason)

def decode? (value : Json) : Option JobState := do
  let r ← Record.ofJson? ["name", "reason", "data"] value
  return {
    name := ← r.required "name" Json.str?
    reason := ← r.optional "reason" Json.str?
    data := ← r.defaulted "data" ∅ (Json.dictOf? Json.str?) }

end JobState

namespace StateName

def enqueued : String := "Enqueued"

def scheduled : String := "Scheduled"

def processing : String := "Processing"

def succeeded : String := "Succeeded"

def failed : String := "Failed"

def deleted : String := "Deleted"

end StateName

/-- A state that a job was given, and when. -/
structure HistoryEntry where
  state : JobState
  createdAt : Instant
deriving DecidableEq, Inhabited

namespace HistoryEntry

def encode (e : HistoryEntry) : Json :=
  .object (("state_name", .str e.state.name) :: ("data", .ofDict .str e.state.data) ::
    ("created_at", .ofInstant e.createdAt) :: Json.memberIfSome "reason" .str e.state.reason)

def decode? (value : Json) : Option HistoryEntry := do
  let r ← Record.ofJson? ["state_name", "reason", "data", "created_at"] value
  let name ← r.required "state_name" Json.str?
  let reason ← r.optional "reason" Json.str?
  let data ← r.defaulted "data" ∅ (Json.dictOf? Json.str?)
  let createdAt ← r.required "created_at" Json.instant?
  return ⟨⟨name, reason, data⟩, createdAt⟩

end HistoryEntry

/-- A job; its history has the latest state first. -/
structure Job where
  invocation : InvocationData
  parameters : Dict String String
  createdAt : Instant
  state : Option JobState
  history : List HistoryEntry
deriving DecidableEq, Inhabited

namespace Job

def blank : Job := ⟨.blank, ∅, .origin, none, []⟩

def stateName? (j : Job) : Option String := j.state.map (·.name)

/-- The job after it was given a state. -/
def enter (j : Job) (state : JobState) (now : Instant) : Job :=
  { j with state := some state, history := ⟨state, now⟩ :: j.history }

def encode (j : Job) : Json :=
  .object (("invocation_data", j.invocation.encode) :: ("parameters", .ofDict .str j.parameters) ::
    ("created_at", .ofInstant j.createdAt) ::
    ("history", .arr (j.history.map HistoryEntry.encode)) ::
    Json.memberIfSome "state" JobState.encode j.state)

def decode? (value : Json) : Option Job := do
  let r ← Record.ofJson? ["invocation_data", "parameters", "created_at", "state", "history"] value
  return {
    invocation := ← r.required "invocation_data" InvocationData.decode?
    parameters := ← r.defaulted "parameters" ∅ (Json.dictOf? Json.str?)
    createdAt := ← r.required "created_at" Json.instant?
    state := ← r.optional "state" JobState.decode?
    history := ← r.defaulted "history" [] (Json.listOf? HistoryEntry.decode?) }

instance : FindOrCreate Job where
  collection := "jobs"
  encode := encode
  decode? := decode?
  blank := blank

end Job

end Jobyard
