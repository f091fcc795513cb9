import Jobyard.Options.Basic
import Jobyard.Text.Split
import Jobyard.Text.Whole

/-!
Options read from named variables. A variable that is not set leaves its default.
-/

namespace Jobyard.Options

def limit64 : Nat := 0xffffffffffffffff

def limit32 : Nat := 0xffffffff

/-- A number from 0 to `limit`, blanks around it aside. -/
def number? (lookup : String → Option String) (name : String) (limit : Nat) :
    Except OptionsError (Option Nat) :=
  match lookup name with
  | none => .ok none
  | some raw =>
    match Text.natural? limit (Text.trim raw) with
    | some n => .ok (some n)
    | none => .error (.unreadable name raw)

/-- The variables that are looked up. -/
def variableNames : List String :=
  ["JOBDOC_QUEUE_POLL_INTERVAL_MS", "JOBDOC_INVISIBILITY_TIMEOUT_SECS",
    "JOBDOC_EXPIRATION_CHECK_INTERVAL_SECS", "JOBDOC_EXPIRATION_BATCH_SIZE",
    "JOBDOC_MAX_CONNECTIONS", "JOBDOC_QUEUES", "DATABASE_URL"]

def ofVariables (lookup : String → Option String) : Except OptionsError Options := do
  let poll ← number? lookup "JOBDOC_QUEUE_POLL_INTERVAL_MS" limit64
  let invisibility ← number? lookup "JOBDOC_INVISIBILITY_TIMEOUT_SECS" limit64
  let check ← number? lookup "JOBDOC_EXPIRATION_CHECK_INTERVAL_SECS" limit64
  let batchSize ← number? lookup "JOBDOC_EXPIRATION_BATCH_SIZE" limit64
  let connections ← number? lookup "JOBDOC_MAX_CONNECTIONS" limit32
  let queues := (lookup "JOBDOC_QUEUES").map fun raw => (Text.split ',' raw).map Text.trim
  let url := (lookup "DATABASE_URL").filter (· ≠ "")
  let options : Options := {
    pollInterval := (poll.map .ofMillis).getD standard.pollInterval
    invisibility := (invisibility.map .ofSeconds).getD standard.invisibility
    checkInterval := (check.map .ofSeconds).getD standard.checkInterval
    batchSize := batchSize.getD standard.batchSize
    databaseUrl := url
    maxConnections := connections.getD standard.maxConnections
    queues := queues.getD standard.queues }
  options.validate
  return options

end Jobyard.Options
