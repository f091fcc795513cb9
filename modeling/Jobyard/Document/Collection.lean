import Jobyard.Document.Basic
import Jobyard.Document.Record

/-!
Counters, scored sets, lists and hashes.
-/

namespace Jobyard

structure Counter where
  value : Int
deriving DecidableEq, Inhabited

namespace Counter

/-- The member that increments change. -/
def field : String := "value"

instance : FindOrCreate Counter where
  collection := "counters"
  encode c := .object [(field, .int c.value)]
  decode? value := do
    let r ← Record.ofJson? [field] value
    return ⟨← r.required field Json.int64?⟩
  blank := ⟨0⟩

end Counter

/-- Members with a score each. -/
structure ScoredSet where
  scores : Dict String Double
deriving DecidableEq, Inhabited

namespace ScoredSet

/-- Scores in their total order; members of one score in the order of their texts. -/
def rankedBefore (a b : String × Double) : Bool :=
  a.2.rank < b.2.rank || (a.2.rank == b.2.rank && a.1 ≤ b.1)

def ranked (s : ScoredSet) : List (String × Double) :=
  s.scores.entries.mergeSort rankedBefore

/-- Scores that are no finite numbers have no JSON form and are written as null. -/
def encodeScore (x : Double) : Json :=
  if x.isFinite then .double x else .null

instance : FindOrCreate ScoredSet where
  collection := "sets"
  encode s := .object [("scores", .ofDict encodeScore s.scores)]
  decode? value := do
    let r ← Record.ofJson? ["scores"] value
    return ⟨← r.defaulted "scores" ∅ (Json.dictOf? Json.number?)⟩
  blank := ⟨∅⟩

end ScoredSet

/-- The part of a list from one index to another, both included. -/
def slice {α : Type} (first last : Nat) (items : List α) : List α :=
  if last < first then [] else (items.drop first).take (last - first + 1)

structure ValueList where
  values : List String
deriving DecidableEq, Inhabited

namespace ValueList

def trim (l : ValueList) (first last : Nat) : ValueList := ⟨slice first last l.values⟩

instance : FindOrCreate ValueList where
  collection := "lists"
  encode l := .object [("values", .ofTexts l.values)]
  decode? value := do
    let r ← Record.ofJson? ["values"] value
    return ⟨← r.defaulted "values" [] (Json.listOf? Json.str?)⟩
  blank := ⟨[]⟩

end ValueList

structure FieldMap where
  fields : Dict String String
deriving DecidableEq, Inhabited

instance : FindOrCreate FieldMap where
  collection := "hashes"
  encode h := .object [("fields", .ofDict .str h.fields)]
  decode? value := do
    let r ← Record.ofJson? ["fields"] value
    return ⟨← r.defaulted "fields" ∅ (Json.dictOf? Json.str?)⟩
  blank := ⟨∅⟩

end Jobyard
