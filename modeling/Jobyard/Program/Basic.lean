import Jobyard.Program.Interaction
import Jobyard.Program.Request

/-!
Programs that run in a world of stores, signals and tokens.
-/

namespace Jobyard

abbrev worldly : Interface := ⟨Request, Request.Reply⟩

abbrev Program := Interaction worldly

def Program.ask (request : Request) : Program request.Reply := .call request .done

/-- A program that may end with the failure of a store. -/
abbrev Action := ExceptT StoreError Program

namespace Action

def store (target : StoreRef) (call : StoreCall) : Action call.Answer :=
  ExceptT.mk (Program.ask (.store target call))

def now : Action Instant := ExceptT.lift (Program.ask .now)

/-- The outcome as a value. -/
def outcome {α : Type} (a : Action α) : Program (Except StoreError α) := a.run

end Action

end Jobyard
