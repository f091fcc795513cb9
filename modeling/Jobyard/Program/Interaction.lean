/-!
Computations that consist of requests and replies. What a computation does next depends on the
replies so far and on nothing else, so that the requests of several of them can be answered in any
interleaving.
-/

namespace Jobyard

/-- The requests that can be made, and the type of the reply to each. -/
structure Interface where
  Request : Type
  Reply : Request → Type

inductive Interaction (I : Interface) (α : Type) : Type
  | done (value : α)
  | call (request : I.Request) (next : I.Reply request → Interaction I α)

namespace Interaction

variable {I : Interface} {α β γ : Type}

protected def bind : Interaction I α → (α → Interaction I β) → Interaction I β
  | .done value, f => f value
  | .call request next, f => .call request fun reply => (next reply).bind f

instance : Monad (Interaction I) where
  pure := .done
  bind := Interaction.bind

@[simp] theorem pure_eq (value : α) : (pure value : Interaction I α) = .done value := rfl

@[simp] theorem done_bind (value : α) (f : α → Interaction I β) :
    Interaction.done value >>= f = f value := rfl

@[simp] theorem call_bind (request : I.Request) (next : I.Reply request → Interaction I α)
    (f : α → Interaction I β) :
    Interaction.call request next >>= f = .call request fun reply => next reply >>= f := rfl

theorem bind_done (p : Interaction I α) : p >>= Interaction.done = p := by
  induction p with
  | done value => rfl
  | call request next ih =>
    rw [call_bind]
    exact congrArg _ (funext ih)

theorem bind_bind (p : Interaction I α) (f : α → Interaction I β) (g : β → Interaction I γ) :
    p >>= f >>= g = p >>= fun value => f value >>= g := by
  induction p with
  | done value => rfl
  | call request next ih =>
    simp only [call_bind]
    exact congrArg _ (funext ih)

instance : LawfulMonad (Interaction I) :=
  LawfulMonad.mk' (Interaction I) bind_done (fun _ _ => rfl) bind_bind

/-- The computation of one request. -/
def ask (request : I.Request) : Interaction I (I.Reply request) := .call request .done

/-- Answers the requests one after the other. -/
def run {m : Type → Type} [Monad m] (answer : (request : I.Request) → m (I.Reply request)) :
    Interaction I α → m α
  | .done value => pure value
  | .call request next => do
    let reply ← answer request
    (next reply).run answer

@[simp] theorem run_done {m : Type → Type} [Monad m]
    (answer : (request : I.Request) → m (I.Reply request)) (value : α) :
    (Interaction.done value).run answer = pure value := rfl

@[simp] theorem run_call {m : Type → Type} [Monad m]
    (answer : (request : I.Request) → m (I.Reply request)) (request : I.Request)
    (next : I.Reply request → Interaction I α) :
    (Interaction.call request next).run answer =
      answer request >>= fun reply => (next reply).run answer := rfl

theorem run_bind {m : Type → Type} [Monad m] [LawfulMonad m]
    (answer : (request : I.Request) → m (I.Reply request)) (p : Interaction I α)
    (f : α → Interaction I β) :
    (p >>= f).run answer = p.run answer >>= fun value => (f value).run answer := by
  induction p with
  | done value => simp
  | call request next ih => simp [ih]

end Interaction

end Jobyard
