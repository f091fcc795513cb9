import Jobyard.Proofs.Session.Operation
import Jobyard.Proofs.Simulation.Calm

/-!
Sessions side by side at one store, with everybody else's calls between their operations. Since an
operation asks the store at most once, sessions that take turns by operations take turns by calls.
-/

namespace Jobyard.Simulation

structure Moment where
  world : World
  request : Request

namespace Moment

def Touches (moment : Moment) (store : StoreRef) (id : DocId) : Prop :=
  match moment.request with
  | .store target call => target = store ∧ (moment.world.memory store).Touches id call
  | _ => False

def Removes (moment : Moment) (store : StoreRef) (id : DocId) : Prop :=
  match moment.request with
  | .store target call => target = store ∧ (moment.world.memory store).Removes id call
  | _ => False

instance (moment : Moment) (store : StoreRef) (id : DocId) : Decidable (moment.Touches store id) :=
  match moment with
  | ⟨world, .store target call⟩ =>
    inferInstanceAs (Decidable (target = store ∧ (world.memory store).Touches id call))
  | ⟨_, .now⟩ | ⟨_, .freshText⟩ | ⟨_, .notify _⟩ | ⟨_, .generation _⟩ | ⟨_, .wait ..⟩
  | ⟨_, .isCancelled _⟩ | ⟨_, .raise _⟩ | ⟨_, .watch ..⟩ | ⟨_, .takeWatched _⟩ | ⟨_, .perform _⟩ =>
    inferInstanceAs (Decidable False)

instance (moment : Moment) (store : StoreRef) (id : DocId) : Decidable (moment.Removes store id) :=
  match moment with
  | ⟨world, .store target call⟩ =>
    inferInstanceAs (Decidable (target = store ∧ (world.memory store).Removes id call))
  | ⟨_, .now⟩ | ⟨_, .freshText⟩ | ⟨_, .notify _⟩ | ⟨_, .generation _⟩ | ⟨_, .wait ..⟩
  | ⟨_, .isCancelled _⟩ | ⟨_, .raise _⟩ | ⟨_, .watch ..⟩ | ⟨_, .takeWatched _⟩ | ⟨_, .perform _⟩ =>
    inferInstanceAs (Decidable False)

theorem Removes.touches {moment : Moment} {store : StoreRef} {id : DocId}
    (h : moment.Removes store id) : moment.Touches store id := by
  obtain ⟨world, request⟩ := moment
  cases request with
  | store target call => exact ⟨h.1, h.2.touches⟩
  | _ => cases h

end Moment

/-- The moments of a program that runs without interruption. -/
def World.moments {α : Type} (w : World) : Program α → List Moment
  | .done _ => []
  | .call request next =>
    ⟨w, request⟩ :: ((answer request).run w).2.moments (next ((answer request).run w).1)

structure Desk where
  world : World
  sessions : Nat → Session

/-- One turn: a session is opened or asked for one of its operations, anybody else calls the store,
or time passes. -/
inductive Deed : Type 1
  | opened (n : Nat) (optimistic : Bool)
  | worked (n : Nat) (op : SessionOp)
  | called (call : StoreCall)
  | clocked (time : Instant)

namespace Desk

def start (store : StoreRef) (clock : Instant) : Desk :=
  ⟨.start clock, fun _ => Session.empty store true⟩

def seat (d : Desk) (n : Nat) (s : Session) (w : World) : Desk :=
  ⟨w, fun k => if k = n then s else d.sessions k⟩

def perform (d : Desk) (n : Nat) (op : SessionOp) : (Except StoreError Unit × Session) × World :=
  d.world.run (op.work.start (d.sessions n))

def act (store : StoreRef) (d : Desk) : Deed → Desk
  | .opened n optimistic => d.seat n (Session.empty store optimistic) d.world
  | .worked n op => d.seat n (d.perform n op).1.2 (d.perform n op).2
  | .called call => ⟨(d.world.run (Program.ask (.store store call))).2, d.sessions⟩
  | .clocked time => ⟨{ d.world with clock := time }, d.sessions⟩

def moments (store : StoreRef) (d : Desk) : Deed → List Moment
  | .worked n op => d.world.moments (op.work.start (d.sessions n))
  | .called call => d.world.moments (Program.ask (.store store call))
  | _ => []

def acts (store : StoreRef) (d : Desk) (deeds : List Deed) : Desk := deeds.foldl (act store) d

def allMoments (store : StoreRef) (d : Desk) : List Deed → List Moment
  | [] => []
  | deed :: rest => d.moments store deed ++ (d.act store deed).allMoments store rest

structure Sound (store : StoreRef) (d : Desk) : Prop where
  calm : d.world.Calm
  keyed : (d.world.memory store).Keyed
  stores : ∀ n, (d.sessions n).store = store

theorem sound_start (store : StoreRef) (clock : Instant) : (start store clock).Sound store where
  calm := World.calm_start clock
  keyed := Memory.keyed_empty
  stores _ := rfl

theorem perform_cases {store : StoreRef} {d : Desk} (hsound : d.Sound store) (n : Nat)
    (op : SessionOp) :
    (d.moments store (.worked n op) = [] ∧ (d.perform n op).2 = d.world ∧
      (d.perform n op).1.2.store = store ∧
      Session.Learned [] (d.sessions n) (d.perform n op).1.2) ∨
    ∃ call, d.moments store (.worked n op) = [⟨d.world, .store store call⟩] ∧
      (d.perform n op).2 = (d.world.call store call).2 ∧ (d.perform n op).1.2.store = store ∧
      Session.Learned [⟨.store store call, (d.world.call store call).1⟩] (d.sessions n)
        (d.perform n op).1.2 := by
  have hconforms := op.asksOnce (d.sessions n)
  rw [hsound.stores n] at hconforms
  have hmoments : d.moments store (.worked n op) =
      d.world.moments (op.work.start (d.sessions n)) := rfl
  rw [hmoments]
  unfold perform
  cases hprogram : op.work.start (d.sessions n) with
  | done result =>
      rw [hprogram] at hconforms
      exact .inl ⟨rfl, rfl, hconforms.2, hconforms.1⟩
  | call request next =>
      rw [hprogram] at hconforms
      obtain ⟨⟨_, call, hrequest⟩, hnext⟩ := hconforms
      subst hrequest
      have hreply := hnext (d.world.call store call).1
      cases hrest : next (d.world.call store call).1 with
      | call other more =>
          rw [hrest] at hreply
          exact absurd hreply.1.1 (List.cons_ne_nil _ _)
      | done result =>
          rw [hrest] at hreply
          have hrun : d.world.run (.call (.store store call) next) =
              (result, (d.world.call store call).2) := by
            rw [World.run_store, hrest]
            rfl
          have hone : d.world.moments (.call (.store store call) next) =
              [⟨d.world, .store store call⟩] := by
            change _ :: World.moments _ (next (d.world.call store call).1) = _
            rw [hrest]
            rfl
          refine .inr ⟨call, hone, ?_⟩
          rw [hrun]
          exact ⟨rfl, hreply.2, hreply.1⟩

theorem act_cases {store : StoreRef} {d : Desk} (hsound : d.Sound store) (deed : Deed) :
    (d.moments store deed = [] ∧ (d.act store deed).world.Calm ∧
      (d.act store deed).world.memory store = d.world.memory store) ∨
    ∃ call, d.moments store deed = [⟨d.world, .store store call⟩] ∧
      (d.act store deed).world.Calm ∧
      (d.act store deed).world.memory store = (d.world.memory store).after call := by
  cases deed with
  | opened n optimistic => exact .inl ⟨rfl, hsound.calm, rfl⟩
  | clocked time => exact .inl ⟨rfl, ⟨hsound.calm.hooks, hsound.calm.deadline⟩, rfl⟩
  | called call =>
      have hfollows := World.call_follows hsound.calm store call
      exact .inr ⟨call, rfl, hfollows.calm hsound.calm, hfollows.memory⟩
  | worked n op =>
      have hworld : (d.act store (.worked n op)).world = (d.perform n op).2 := rfl
      rw [hworld]
      rcases perform_cases hsound n op with ⟨hmoments, hsame, _⟩ | ⟨call, hmoments, hcall, _⟩
      · rw [hsame]
        exact .inl ⟨hmoments, hsound.calm, rfl⟩
      · have hfollows := World.call_follows hsound.calm store call
        rw [hcall]
        exact .inr ⟨call, hmoments, hfollows.calm hsound.calm, hfollows.memory⟩

theorem act_stores {store : StoreRef} {d : Desk} (hsound : d.Sound store) (deed : Deed) (n : Nat) :
    ((d.act store deed).sessions n).store = store := by
  cases deed with
  | opened k optimistic =>
      change (if n = k then _ else _ : Session).store = store
      split
      · rfl
      · exact hsound.stores n
  | clocked time => exact hsound.stores n
  | called call => exact hsound.stores n
  | worked k op =>
      change (if n = k then _ else _ : Session).store = store
      split
      · rcases perform_cases hsound k op with ⟨_, _, hstore, _⟩ | ⟨_, _, _, hstore, _⟩
        · exact hstore
        · exact hstore
      · exact hsound.stores n

theorem Sound.act {store : StoreRef} {d : Desk} (hsound : d.Sound store) (deed : Deed) :
    (d.act store deed).Sound store := by
  refine ⟨?_, ?_, act_stores hsound deed⟩
  · rcases act_cases hsound deed with ⟨_, hcalm, _⟩ | ⟨_, _, hcalm, _⟩
    · exact hcalm
    · exact hcalm
  · rcases act_cases hsound deed with ⟨_, _, hsame⟩ | ⟨call, _, _, hafter⟩
    · rw [hsame]
      exact hsound.keyed
    · rw [hafter]
      exact hsound.keyed.after call

theorem Sound.acts {store : StoreRef} {d : Desk} (hsound : d.Sound store) (deeds : List Deed) :
    (d.acts store deeds).Sound store := by
  induction deeds generalizing d with
  | nil => exact hsound
  | cons deed rest ih => exact ih (hsound.act deed)

end Desk

end Jobyard.Simulation
