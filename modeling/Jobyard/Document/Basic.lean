import Jobyard.Error
import Jobyard.Json.Basic

/-!
Kinds of documents. Every kind lives in a collection of its own and has a JSON form.
-/

namespace Jobyard

class Document (α : Type) where
  collection : String
  encode : α → Json
  decode? : Json → Option α

/-- Kinds with an empty document, which stands in for a missing one. -/
class FindOrCreate (α : Type) extends Document α where
  blank : α

namespace Document

def idFor (α : Type) [Document α] (key : String) : DocId := ⟨collection α, key⟩

def decode (α : Type) [Document α] (body : Json) : Except ModelError α :=
  match decode? body with
  | some document => .ok document
  | none => .error .shape

end Document

end Jobyard
