import Jobyard.Document.Collection
import Jobyard.Document.Job
import Jobyard.Document.QueueEntry
import Jobyard.Document.Server
import Jobyard.Session.Work

/-!
Kinds of documents known by their names, for hosts that choose a kind while they run. Documents
are given and taken in their JSON form.
-/

namespace Jobyard

structure Kind where
  collection : String
  /-- Reads a document and writes it again. -/
  recode? : Json → Option Json
  load : DocId → Work Json
  loadMany : List DocId → Work Json
  /-- Null for kinds without a blank document. -/
  loadOrBlank : DocId → Work Json
  save? : DocId → Json → Option (Work Unit)
  query : Query → Work (List (DocId × Json))
  decode : Stored → Except StoreError Json

namespace Kind

def of (α : Type) [Document α] (loadOrBlank : DocId → Work Json) : Kind where
  collection := Document.collection α
  recode? value := (Document.decode? value : Option α).map Document.encode
  load id := do return Json.ofOption Document.encode (← Work.load α id)
  loadMany ids := do
    return .arr ((← Work.loadMany α ids).map (Json.ofOption Document.encode))
  loadOrBlank := loadOrBlank
  save? id value := (Document.decode? value : Option α).map (Work.save id)
  query q := do return (← Work.query α q).map fun entry => (entry.1, Document.encode entry.2)
  decode d := (d.decode α).map Document.encode

def ofBlank (α : Type) [FindOrCreate α] : Kind :=
  .of α fun id => do return Document.encode (← Work.loadOrBlank α id)

/-- All kinds by their names. -/
def all : List (String × Kind) :=
  [("job", .ofBlank Job), ("queue_entry", .of QueueEntry fun _ => pure .null),
    ("counter", .ofBlank Counter), ("set", .ofBlank ScoredSet), ("list", .ofBlank ValueList),
    ("hash", .ofBlank FieldMap), ("server", .ofBlank Server)]

end Kind

end Jobyard
