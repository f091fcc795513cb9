import Jobyard.Json.Access
import Jobyard.Time.Text

/-!
Records read from JSON: from an object, where unknown members are ignored, or from an array that
lists the fields in their order. Missing fields have to be optional or to have a default.
-/

namespace Jobyard

/-- The fields that were found. -/
structure Record where
  fields : List (String × Option Json)

namespace Record

/-- An array may be shorter than the fields but not longer. -/
def ofJson? (names : List String) : Json → Option Record
  | .obj members => some ⟨names.map fun name => (name, Entries.find? name members)⟩
  | .arr items =>
    if items.length ≤ names.length then
      some ⟨names.zip (items.map some ++ List.replicate (names.length - items.length) none)⟩
    else none
  | _ => none

def find? (r : Record) (name : String) : Option Json :=
  (r.fields.lookup name).join

def required {α : Type} (r : Record) (name : String) (read : Json → Option α) : Option α :=
  (r.find? name).bind read

def defaulted {α : Type} (r : Record) (name : String) (default : α) (read : Json → Option α) :
    Option α :=
  match r.find? name with
  | none => some default
  | some value => read value

/-- A field that may be missing or null. -/
def optional {α : Type} (r : Record) (name : String) (read : Json → Option α) :
    Option (Option α) :=
  match r.find? name with
  | none => some none
  | some .null => some none
  | some value => (read value).map some

end Record

namespace Json

def instant? (value : Json) : Option Instant :=
  value.str?.bind Instant.parseLenient?

def ofInstant (t : Instant) : Json := .str t.text

end Json

end Jobyard
