import Jobyard.Dict
import Jobyard.Number.Double

/-!
JSON values. Whole numbers and doubles are different values even where they denote the same
number; members of an object are kept in the order of their names, each name once.
-/

namespace Jobyard

inductive Json
  | null
  | bool (value : Bool)
  | int (value : Int)
  | double (value : Double)
  | str (text : String)
  | arr (items : List Json)
  | obj (members : List (String × Json))
deriving Inhabited

namespace Json

/-- The least and the greatest whole number that is kept as one. -/
def leastInt : Int := -0x8000000000000000

def greatestInt : Int := 0xffffffffffffffff

/-- An object from members in any order; of members with one name the last counts. -/
def object (members : List (String × Json)) : Json :=
  .obj (Entries.ofList members)

def isNull : Json → Bool
  | .null => true
  | _ => false

def str? : Json → Option String
  | .str text => some text
  | _ => none

def items? : Json → Option (List Json)
  | .arr items => some items
  | _ => none

/-- The member of an object. -/
def member? (name : String) : Json → Option Json
  | .obj members => Entries.find? name members
  | _ => none

/-- What lies at the end of a path of member names; a path that leads nowhere ends at `null`. -/
def follow (path : List String) (value : Json) : Json :=
  match path with
  | [] => value
  | name :: rest =>
    match value.member? name with
    | some next => next.follow rest
    | none => .null

mutual

/-- Equality as values: doubles compare as numbers and never equal a whole number. -/
def same : Json → Json → Bool
  | .null, .null => true
  | .bool a, .bool b => a == b
  | .int a, .int b => a == b
  | .double a, .double b => a.same b
  | .str a, .str b => a == b
  | .arr a, .arr b => sameItems a b
  | .obj a, .obj b => sameMembers a b
  | _, _ => false
termination_by structural value => value

def sameItems : List Json → List Json → Bool
  | [], [] => true
  | a :: as, b :: bs => a.same b && sameItems as bs
  | _, _ => false
termination_by structural items => items

def sameMembers : List (String × Json) → List (String × Json) → Bool
  | [], [] => true
  | a :: as, b :: bs => sameMember a b && sameMembers as bs
  | _, _ => false
termination_by structural members => members

def sameMember : String × Json → String × Json → Bool
  | (name, a), (name', b) => name == name' && a.same b
termination_by structural member => member

end

@[simp] theorem follow_nil (value : Json) : value.follow [] = value := rfl

theorem follow_cons (name : String) (rest : List String) (value : Json) :
    value.follow (name :: rest) =
      match value.member? name with
      | some next => next.follow rest
      | none => .null := rfl

end Json

end Jobyard
