import Jobyard.Json.Basic
import Jobyard.Number.Rounding

/-!
Values of other types read from JSON values and written as such.
-/

namespace Jobyard.Json

def least64 : Int := -0x8000000000000000

def greatest64 : Int := 0x7fffffffffffffff

/-- A whole number within bounds. -/
def intWithin? (low high : Int) : Json → Option Int
  | .int n => if low ≤ n ∧ n ≤ high then some n else none
  | _ => none

def int64? : Json → Option Int := intWithin? least64 greatest64

/-- A whole number from 0 to `limit`. -/
def natWithin? (limit : Nat) (value : Json) : Option Nat :=
  (intWithin? 0 limit value).map Int.toNat

/-- A double, or the double nearest to a whole number. -/
def number? : Json → Option Double
  | .int n => some (.ofInt n)
  | .double x => some x
  | _ => none

def listOf? {α : Type} (read : Json → Option α) (value : Json) : Option (List α) := do
  (← value.items?).mapM read

def dictOf? {α : Type} (read : Json → Option α) : Json → Option (Dict String α)
  | .obj members => do
    let entries ← members.mapM fun member => (read member.2).map fun value => (member.1, value)
    return Dict.ofList entries
  | _ => none

def ofOption {α : Type} (write : α → Json) : Option α → Json
  | none => .null
  | some value => write value

def ofTexts (texts : List String) : Json := .arr (texts.map .str)

def ofDict {α : Type} (write : α → Json) (d : Dict String α) : Json :=
  .obj (d.entries.map fun entry => (entry.1, write entry.2))

/-- A member that is left out when there is no value. -/
def memberIfSome {α : Type} (name : String) (write : α → Json) : Option α → List (String × Json)
  | none => []
  | some value => [(name, write value)]

end Jobyard.Json
