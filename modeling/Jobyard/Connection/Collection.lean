import Jobyard.Connection.Basic
import Jobyard.Transaction.Collection

/-!
Counters, sets, lists and hashes as hosts read them.
-/

namespace Jobyard.Connection

def counter (c : Connection) (key : String) : Action Int := do
  let found ← c.load Counter key
  pure ((found.map (·.value)).getD 0)

def scores (c : Connection) (key : String) : Action (Dict String Double) := do
  let found ← c.load ScoredSet key
  pure ((found.map (·.scores)).getD ∅)

def setMembers (c : Connection) (key : String) : Action (List String) := do
  pure (← c.scores key).keys

def setSize (c : Connection) (key : String) : Action Nat := do
  pure (← c.scores key).size

/-- The first member, in the order of scores, whose score lies between two bounds. -/
def firstByScore (c : Connection) (key : String) (low high : Double) :
    Action (Option String) := do
  if high.less low then throw .scoreRange
  let found ← c.load ScoredSet key
  pure (found.bind fun s =>
    (s.ranked.find? fun entry => low.atMost entry.2 && entry.2.atMost high).map (·.1))

/-- Members in the order of their scores, from one rank to another. -/
def setRange (c : Connection) (key : String) (first last : Nat) : Action (List String) := do
  let found ← c.load ScoredSet key
  pure ((found.map fun s => slice first last (s.ranked.map (·.1))).getD [])

def listValues (c : Connection) (key : String) : Action (List String) := do
  let found ← c.load ValueList key
  pure ((found.map (·.values)).getD [])

def listSize (c : Connection) (key : String) : Action Nat := do
  pure (← c.listValues key).length

def listRange (c : Connection) (key : String) (first last : Nat) : Action (List String) := do
  pure (slice first last (← c.listValues key))

def fields (c : Connection) (key : String) : Action (Option (Dict String String)) := do
  let found ← c.load FieldMap key
  pure (found.map (·.fields))

def fieldValue (c : Connection) (key name : String) : Action (Option String) := do
  pure ((← c.fields key).bind fun fields => fields.find? name)

def fieldCount (c : Connection) (key : String) : Action Nat := do
  pure (((← c.fields key).map Dict.size).getD 0)

/-- Sets fields of a hash in a transaction of its own. -/
def setFields (c : Connection) (key : String) (fields : List (String × String)) : Action Unit :=
  ExceptT.mk do
    let (result, _) ← ((do
      Step.setFields key fields
      Step.commit : Step Unit).run).run c.transaction
    pure result

end Jobyard.Connection
