import Jobyard.Id

/-!
Failures of the document model: texts that are no identifiers, and values or texts without the
shape that a document needs.
-/

namespace Jobyard

inductive ModelError
  | id (cause : IdError)
  /-- A JSON value or text does not have the expected form. -/
  | shape
  | namelessInvocation
  | argumentCount (types arguments : Nat)
deriving DecidableEq

inductive ModelErrorKind
  | invalidId
  | serialization
deriving DecidableEq

namespace ModelError

def kind : ModelError → ModelErrorKind
  | .id _ => .invalidId
  | .shape => .serialization
  | .namelessInvocation => .serialization
  | .argumentCount .. => .serialization

/-- Wrong forms are not described further. -/
def message : ModelError → String
  | .id cause => cause.message
  | .shape => "serialization failed: <json>"
  | .namelessInvocation => "serialization failed: invocation without type or method"
  | .argumentCount types arguments =>
    "serialization failed: " ++ toString types ++ " parameter types but " ++
      toString arguments ++ " arguments"

end ModelError

end Jobyard
