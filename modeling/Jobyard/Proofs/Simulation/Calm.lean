import Jobyard.Proofs.Store.Answer
import Jobyard.Simulation.World

/-!
Calm worlds, in which nothing but programs acts. There a call of a store is the store's own answer,
and no other request reaches a store.
-/

namespace Jobyard.Simulation.World

structure Calm (w : World) : Prop where
  hooks : w.hooks = []
  deadline : w.deadline = none

theorem calm_start (clock : Instant) : (start clock).Calm := ⟨rfl, rfl⟩

theorem memory_withMemory_self (w : World) (store : StoreRef) (m : Memory) :
    (w.withMemory store m).memory store = m := by
  simp [memory, withMemory]

theorem memory_withMemory_of_ne (w : World) {store other : StoreRef} (m : Memory)
    (hne : other ≠ store) : (w.withMemory store m).memory other = w.memory other := by
  have hindex : other.index ≠ store.index := by
    intro h
    cases other
    cases store
    exact hne (congrArg StoreRef.mk h)
  simp [memory, withMemory, Dict.find?_insert_of_ne _ _ hindex]

/-- A world changed at one store and in its records only. -/
structure Follows (w next : World) (store : StoreRef) (m : Memory) : Prop where
  memory : next.memory store = m
  others : ∀ other, other ≠ store → next.memory other = w.memory other
  hooks : next.hooks = w.hooks
  deadline : next.deadline = w.deadline
  clock : next.clock = w.clock
  issued : next.issued = w.issued

theorem follows_withMemory (w : World) (store : StoreRef) (m : Memory) :
    Follows w (w.withMemory store m) store m where
  memory := memory_withMemory_self w store m
  others _ hne := memory_withMemory_of_ne w m hne
  hooks := rfl
  deadline := rfl
  clock := rfl
  issued := rfl

theorem follows_self (w : World) (store : StoreRef) : Follows w w store (w.memory store) where
  memory := rfl
  others _ _ := rfl
  hooks := rfl
  deadline := rfl
  clock := rfl
  issued := rfl

theorem Follows.trans {w middle last : World} {store : StoreRef} {m next : Memory}
    (hfirst : Follows w middle store m) (hsecond : Follows middle last store next) :
    Follows w last store next where
  memory := hsecond.memory
  others other hne := (hsecond.others other hne).trans (hfirst.others other hne)
  hooks := hsecond.hooks.trans hfirst.hooks
  deadline := hsecond.deadline.trans hfirst.deadline
  clock := hsecond.clock.trans hfirst.clock
  issued := hsecond.issued.trans hfirst.issued

theorem apply_answer (w : World) (store : StoreRef) (call : StoreCall) :
    (w.apply store call).1 = ((w.memory store).answer call).1 := by
  cases call with
  | commit batch =>
      simp only [apply, Memory.answer]
      cases (w.memory store).commit batch <;> rfl
  | _ => rfl

theorem apply_follows (w : World) (store : StoreRef) (call : StoreCall) :
    Follows w (w.apply store call).2 store ((w.memory store).after call) := by
  cases call with
  | destroy => exact follows_withMemory w store _
  | commit batch =>
      simp only [apply, Memory.after, Memory.answer]
      cases (w.memory store).commit batch with
      | error e => exact follows_self w store
      | ok next => exact follows_withMemory w store next
  | purge now limit => exact follows_withMemory w store _
  | _ => exact follows_self w store

theorem publish_memory (w : World) (call : StoreCall) (store : StoreRef) :
    (w.publish call).memory store = w.memory store := by
  cases call <;> rfl

theorem recordCommit_follows {w next : World} {store : StoreRef} {m : Memory}
    (h : Follows w next store m) (call : StoreCall) (applied : Bool) :
    Follows w (next.recordCommit call applied) store m := by
  cases call with
  | commit batch => exact ⟨h.memory, h.others, h.hooks, h.deadline, h.clock, h.issued⟩
  | _ => exact h

theorem publish_follows {w next : World} {call : StoreCall} {store : StoreRef} {m : Memory}
    (h : Follows (w.publish call) next store m) : Follows w next store m := by
  cases call with
  | commit batch => exact ⟨h.memory, h.others, h.hooks, h.deadline, h.clock, h.issued⟩
  | _ => exact h

theorem call_eq_of_calm {w : World} (hcalm : w.Calm) (store : StoreRef) (c : StoreCall) :
    w.call store c =
      (((w.publish c).apply store c).1,
        ((w.publish c).apply store c).2.recordCommit c ((w.publish c).apply store c).1.isOk) := by
  obtain ⟨clock, stores, signals, tokens, hooks, deadline, issued, published, commits,
    performed⟩ := w
  obtain ⟨hhooks, hdeadline⟩ := hcalm
  subst hhooks hdeadline
  cases c <;> rfl

theorem run_store {α : Type} (w : World) (store : StoreRef) (call : StoreCall)
    (next : Except StoreError call.Answer → Program α) :
    w.run (.call (.store store call) next) =
      (w.call store call).2.run (next (w.call store call).1) := rfl

theorem call_answer {w : World} (hcalm : w.Calm) (store : StoreRef) (c : StoreCall) :
    (w.call store c).1 = ((w.memory store).answer c).1 := by
  rw [call_eq_of_calm hcalm, apply_answer, publish_memory]

theorem call_follows {w : World} (hcalm : w.Calm) (store : StoreRef) (c : StoreCall) :
    Follows w (w.call store c).2 store ((w.memory store).after c) := by
  rw [call_eq_of_calm hcalm]
  have happly := apply_follows (w.publish c) store c
  rw [publish_memory] at happly
  exact recordCommit_follows (publish_follows happly) c _

theorem Follows.calm {w next : World} {store : StoreRef} {m : Memory} (h : Follows w next store m)
    (hcalm : w.Calm) : next.Calm :=
  ⟨h.hooks.trans hcalm.hooks, h.deadline.trans hcalm.deadline⟩

end Jobyard.Simulation.World
