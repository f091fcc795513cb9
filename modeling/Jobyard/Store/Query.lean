import Jobyard.Store.Stored
import Jobyard.Text.Split
import Jobyard.Time.Text

/-!
Queries over one collection: filters on members of the body, an order by creation, and a page.
-/

namespace Jobyard

/-- A condition on the value at the end of a path. -/
inductive Condition
  | equals (value : Json)
  | oneOf (values : List Json)
  | isNull
  | notNull
  /-- A strictly written point of time before another one. -/
  | before (time : Instant)

def Condition.holds : Condition → Json → Bool
  | .equals value, found => found.same value
  | .oneOf values, found => values.any fun value => value.same found
  | .isNull, found => found.isNull
  | .notNull, found => !found.isNull
  | .before time, found =>
    match found.str?.bind Instant.parse? with
    | some t => t.before time
    | none => false

structure Filter where
  path : List String
  condition : Condition

namespace Filter

/-- A path written with dots between its names. -/
def pathOf (dotted : String) : List String := Text.split '.' dotted

def accepts (f : Filter) (body : Json) : Bool :=
  f.condition.holds (body.follow f.path)

def isWellFormed (f : Filter) : Bool :=
  !f.path.isEmpty && f.path.all (· ≠ "")

end Filter

inductive Order
  | oldestFirst
  | newestFirst
deriving DecidableEq

structure Query where
  collection : String
  filters : List Filter
  order : Order
  skip : Nat
  take : Option Nat

namespace Query

/-- All documents of a collection. -/
def ofCollection (collection : String) : Query :=
  { collection, filters := [], order := .oldestFirst, skip := 0, take := none }

def of (α : Type) [Document α] : Query := ofCollection (Document.collection α)

def filter (q : Query) (dotted : String) (condition : Condition) : Query :=
  { q with filters := q.filters ++ [⟨Filter.pathOf dotted, condition⟩] }

def page (q : Query) (skip take : Nat) : Query := { q with skip, take := some take }

def validate (q : Query) : Except StoreError Unit :=
  if q.collection = "" then .error .emptyCollection
  else
    match q.filters.find? fun f => !f.isWellFormed with
    | some f => .error (.malformedPath f.path)
    | none => .ok ()

def accepts (q : Query) (d : Stored) : Bool :=
  d.id.collection == q.collection && q.filters.all fun f => f.accepts d.body

def comesFirst (q : Query) (a b : Stored) : Bool :=
  match q.order with
  | .oldestFirst => a.sequence ≤ b.sequence
  | .newestFirst => b.sequence ≤ a.sequence

/-- Orders accepted documents and cuts out the page. -/
def finish (q : Query) (documents : List Stored) : List Stored :=
  let rest := (documents.mergeSort q.comesFirst).drop q.skip
  match q.take with
  | none => rest
  | some n => rest.take n

end Query

end Jobyard
