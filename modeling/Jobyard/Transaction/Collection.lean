import Jobyard.Document.Collection
import Jobyard.Transaction.Basic

/-!
Steps of transactions on counters, sets, lists and hashes.
-/

namespace Jobyard

namespace Work

/-- Changes a document, a missing one starting as the blank one. -/
def change (α : Type) [FindOrCreate α] (key : String) (f : α → α) : Work Unit := do
  let id := Document.idFor α key
  let document ← loadOrBlank α id
  save id (f document)

/-- Changes a document and deletes it when it is empty afterwards. -/
def changeOrDelete (α : Type) [FindOrCreate α] (key : String) (f : α → α) (isEmpty : α → Bool) :
    Work Unit := do
  let id := Document.idFor α key
  let document := f (← loadOrBlank α id)
  if isEmpty document then delete id else save id document

end Work

namespace Step

/-- Adds to a counter. One that this transaction creates is kept as a document; one that the
store has is changed there, so that others may change it at the same time. -/
def addToCounter (key : String) (delta : Int) (length : Option Duration) : Step Unit :=
  ofWork do
    let id := Document.idFor Counter key
    let expiresAt ← length.mapM fun length => do pure ((← Work.now).expiresIn length)
    let create (value : Int) : Work Unit := do
      Work.save id (Counter.mk value)
      match expiresAt with
      | some time => discard (Work.setExpiry id time)
      | none => pure ()
    match ← Work.load Counter id with
    | some counter =>
      if (← get).isNew id then create (counter.value + delta)
      else modify fun s => s.defer (.increment id Counter.field delta expiresAt)
    | none => create delta

def addToSet (key member : String) (score : Double) : Step Unit :=
  ofWork (Work.change ScoredSet key fun s => ⟨s.scores.insert member score⟩)

def addRangeToSet (key : String) (members : List String) : Step Unit :=
  ofWork (Work.change ScoredSet key fun s =>
    ⟨s.scores.insertMany (members.map fun member => (member, Double.zero))⟩)

/-- Removes a member; the set goes with its last one. -/
def removeFromSet (key member : String) : Step Unit :=
  ofWork (Work.changeOrDelete ScoredSet key (fun s => ⟨s.scores.erase member⟩)
    fun s => s.scores.isEmpty)

def appendToList (key value : String) : Step Unit :=
  ofWork (Work.change ValueList key fun l => ⟨l.values ++ [value]⟩)

/-- Removes all occurrences of a value; an empty list is deleted. -/
def removeFromList (key value : String) : Step Unit :=
  ofWork (Work.changeOrDelete ValueList key (fun l => ⟨l.values.filter (· ≠ value)⟩)
    fun l => l.values.isEmpty)

def trimList (key : String) (first last : Nat) : Step Unit :=
  ofWork (Work.changeOrDelete ValueList key (fun l => l.trim first last)
    fun l => l.values.isEmpty)

def setFields (key : String) (fields : List (String × String)) : Step Unit :=
  ofWork (Work.change FieldMap key fun h => ⟨h.fields.insertMany fields⟩)

/-- Removes the document of a kind. -/
def remove (α : Type) [Document α] (key : String) : Step Unit :=
  ofWork (Work.delete (Document.idFor α key))

/-- Has a document expire; a missing one is created so that it can. -/
def expire (α : Type) [FindOrCreate α] (key : String) (length : Duration) : Step Unit :=
  ofWork do
    let id := Document.idFor α key
    discard (Work.loadOrBlank α id)
    let now ← Work.now
    discard (Work.setExpiry id (now.expiresIn length))

def persist (α : Type) [FindOrCreate α] (key : String) : Step Unit :=
  ofWork do
    let id := Document.idFor α key
    discard (Work.loadOrBlank α id)
    discard (Work.removeExpiry id)

end Step

end Jobyard
