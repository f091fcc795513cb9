import Jobyard.Proofs.Counter.Plan
import Jobyard.Proofs.Simulation.Trail

/-!
Counters converge. Whatever transactions and reapers do at the same time, a counter is the sum of
what was committed to it since it was last absent.
-/

namespace Jobyard.Simulation

open CounterPlan Counter

/-- What is done at a store with counters. Every try of a transaction that is retried is a
transaction of its own. -/
inductive CounterTask
  | transact (c : Connection) (plan : CounterPlan)
  | reap (r : Reaper) (rounds : Nat)
  | other (p : Program Unit)

def SparesCounters (store : StoreRef) (_ : Log) (request : Request) : Prop :=
  ∀ batch, request = .store store (.commit batch) → ∀ w ∈ batch, ∀ key,
    w.id ≠ Document.idFor Counter key

namespace CounterTask

def program : CounterTask → Program Settlement
  | transact c plan => plan.program c.transaction []
  | reap r rounds => (r.runOnce rounds).run >>= fun _ => pure ⟨[], none⟩
  | other p => p >>= fun _ => pure ⟨[], none⟩

def At (store : StoreRef) : CounterTask → Prop
  | transact c _ => c.store = store
  | reap .. => True
  | other p => p.Conforms (SparesCounters store) (fun _ _ => True) []

def allowed (store : StoreRef) : CounterTask → Log → Request → Prop
  | transact .. => Asks store
  | _ => SparesCounters store

def ends (store : StoreRef) : CounterTask → Log → Settlement → Prop
  | transact .. => Ends store
  | _ => fun _ settlement => settlement.gains = []

theorem conforms {store : StoreRef} {task : CounterTask} (hat : task.At store) :
    task.program.Conforms (task.allowed store) (task.ends store) [] := by
  cases task with
  | transact c plan =>
      cases hat
      exact plan.conforms (Session.tallies_empty c.store) rfl rfl
  | reap r rounds =>
      exact (r.conforms_runOnce rounds (fun _ _ heq => nomatch heq)
        fun _ _ _ _ heq => nomatch heq).bind fun _ _ _ => rfl
  | other p => exact hat.bind fun _ _ _ => rfl

end CounterTask

def gained : Program Settlement → List Addition
  | .done settlement => settlement.gains
  | .call .. => []

def Event.gained : Event CounterTask Settlement → List Addition
  | .proceeded _ thread => Simulation.gained thread.rest
  | _ => []

theorem World.run_connection_load {w : World} (hcalm : w.Calm) (c : Connection) (α : Type)
    [Document α] (key : String) :
    w.run (c.load α key).run =
      ((Tracked.ofLoaded ((w.memory c.store).find? (Document.idFor α key))).decode α
        (Document.idFor α key), w) := by
  change w.run ((Work.alone c.store (Work.load α (Document.idFor α key))).run) = _
  rw [Work.run_alone, run_bind, run_load hcalm]
  rfl

theorem decode_of_carries {sum : Int} {document : Option Stored} (hcarries : Carries sum document)
    (hleast : Json.least64 ≤ sum) (hgreatest : sum ≤ Json.greatest64) (id : DocId) :
    ∃ found : Option Counter, (Tracked.ofLoaded document).decode Counter id = .ok found ∧
      (found.map (·.value)).getD 0 = sum := by
  cases document with
  | none => exact ⟨none, rfl, Eq.symm hcarries⟩
  | some d =>
      have hread := Counter.decode?_encode (Counter.mk sum)
      rw [Json.int64?_eq_some.mpr ⟨rfl, hleast, hgreatest⟩] at hread
      refine ⟨some ⟨sum⟩, ?_, rfl⟩
      simp only [Tracked.decode, Tracked.ofLoaded, Tracked.ofStored]
      rw [show d.body = _ from hcarries, hread]
      rfl

abbrev CounterYard := Yard CounterTask Settlement

namespace CounterYard

def counter (store : StoreRef) (key : String) (y : CounterYard) : Option Stored :=
  (y.world.memory store).find? (Document.idFor Counter key)

/-- What was added to a counter since it was last absent, the latest turn first. -/
def total (store : StoreRef) (key : String) (stages : List (Stage CounterTask Settlement)) : Int :=
  gain key ((stages.takeWhile fun stage => (counter store key stage.yard).isSome).flatMap
    fun stage => stage.event.gained)

variable {store : StoreRef} {key : String}

theorem total_cons_of_none {stage : Stage CounterTask Settlement}
    (h : counter store key stage.yard = none) (stages : List (Stage CounterTask Settlement)) :
    total store key (stage :: stages) = 0 := by
  simp [total, h, gain]

theorem total_cons_of_some {stage : Stage CounterTask Settlement}
    (h : counter store key stage.yard ≠ none) (stages : List (Stage CounterTask Settlement)) :
    total store key (stage :: stages) = total store key stages + gain key stage.event.gained := by
  unfold total
  rw [List.takeWhile_cons, if_pos (Option.isSome_iff_ne_none.mpr h), List.flatMap_cons,
    gain_append, Int.add_comm]

theorem carries_of_commit {log : Log} {rest : Program Settlement} {m next : Memory} {sum : Int}
    (hrest : rest.Conforms (Asks store) (Ends store) log)
    (hcommit : m.commit (log.accepted?.getD []) = .ok next)
    (hcarries : Carries sum (m.find? (Document.idFor Counter key))) :
    Carries (sum + gain key (gained rest)) (next.find? (Document.idFor Counter key)) := by
  cases rest with
  | call request more =>
      rw [hrest.1.1, Option.getD_none, Memory.commit_nil] at hcommit
      cases hcommit
      rw [show gain key (gained (.call request more)) = 0 from rfl, Int.add_zero]
      exact hcarries
  | done settlement =>
      obtain ⟨s, htallies, hbatch⟩ := hrest
      rw [← hbatch] at hcommit
      exact htallies.carries hcommit hcarries

theorem gain_of_ends {log : Log} {rest : Program Settlement} {allowed : Log → Request → Prop}
    (hrest : rest.Conforms allowed (fun _ settlement => settlement.gains = []) log) :
    gain key (gained rest) = 0 := by
  cases rest with
  | call => rfl
  | done settlement =>
      change gain key settlement.gains = 0
      rw [show settlement.gains = [] from hrest]
      rfl

section Turn

variable {w next : World} {log : Log} {request : Request} {reply : request.Reply}

theorem carries_of_transacted {rest : Program Settlement} {sum : Int} (hcalm : w.Calm)
    (hreacts : w.Reacts request reply next) (hasks : Asks store log request)
    (hrest : rest.Conforms (Asks store) (Ends store) (⟨request, reply⟩ :: log))
    (hcarries : Carries sum ((w.memory store).find? (Document.idFor Counter key)))
    (hpresent : (next.memory store).find? (Document.idFor Counter key) ≠ none) :
    Carries (sum + gain key (gained rest))
      ((next.memory store).find? (Document.idFor Counter key)) := by
  have hlatest : Log.accepted? (⟨request, reply⟩ :: log) = Exchange.accepted? ⟨request, reply⟩ :=
    rfl
  cases haccepted : Exchange.accepted? ⟨request, reply⟩ with
  | none =>
      have hkept := (World.find?_of_unaccepted hcalm hreacts haccepted store _).resolve_right
        hpresent
      rw [← hkept] at hcarries
      refine carries_of_commit hrest ?_ hcarries
      rw [hlatest, haccepted]
      exact Memory.commit_nil _
  | some batch =>
      obtain ⟨target, rfl, hcommit, _⟩ := World.commit_of_accepted hcalm hreacts haccepted
      cases hasks.2 target batch rfl
      refine carries_of_commit hrest ?_ hcarries
      rw [hlatest, haccepted]
      exact hcommit

theorem carries_of_spared {rest : Program Settlement} {allowed : Log → Request → Prop} {sum : Int}
    (hcalm : w.Calm) (hreacts : w.Reacts request reply next)
    (hspares : SparesCounters store log request)
    (hrest : rest.Conforms allowed (fun _ settlement => settlement.gains = [])
      (⟨request, reply⟩ :: log))
    (hcarries : Carries sum ((w.memory store).find? (Document.idFor Counter key)))
    (hpresent : (next.memory store).find? (Document.idFor Counter key) ≠ none) :
    Carries (sum + gain key (gained rest))
      ((next.memory store).find? (Document.idFor Counter key)) := by
  have hkept : (next.memory store).find? (Document.idFor Counter key) =
      (w.memory store).find? (Document.idFor Counter key) := by
    cases haccepted : Exchange.accepted? ⟨request, reply⟩ with
    | none =>
        exact (World.find?_of_unaccepted hcalm hreacts haccepted store _).resolve_right hpresent
    | some batch =>
        obtain ⟨target, rfl, hcommit, hothers⟩ := World.commit_of_accepted hcalm hreacts haccepted
        by_cases htarget : store = target
        · subst htarget
          exact Memory.find?_commit_of_forall_ne hcommit fun w hw => hspares batch rfl w hw key
        · rw [hothers store htarget]
  rw [gain_of_ends hrest, Int.add_zero, hkept]
  exact hcarries

end Turn

variable {y last : CounterYard} {event : Event CounterTask Settlement} {clock : Instant}
  {stages : List (Stage CounterTask Settlement)}

theorem carries_of_step (hcalm : y.world.Calm)
    (horderly : y.Orderly (CounterTask.At store) (CounterTask.allowed store)
      (CounterTask.ends store))
    (hstep : Yard.Step CounterTask.program (CounterTask.At store) y event last) {sum : Int}
    (hcarries : Carries sum (counter store key y)) (hpresent : counter store key last ≠ none) :
    Carries (sum + gain key event.gained) (counter store key last) := by
  cases hstep with
  | began n task hfree hadmits =>
      rw [show gain key (Event.gained (.began n task)) = 0 from rfl, Int.add_zero]
      exact hcarries
  | clocked time =>
      rw [show gain key (Event.gained (.clocked time)) = 0 from rfl, Int.add_zero]
      exact hcarries
  | proceeded n task log request next reply w hthread hreacts =>
      obtain ⟨_, hallowed, hnext⟩ := horderly n _ hthread
      change Carries (sum + gain key (gained (next reply)))
        ((w.memory store).find? (Document.idFor Counter key))
      cases task with
      | transact c plan =>
          exact carries_of_transacted hcalm hreacts hallowed (hnext reply) hcarries hpresent
      | reap r rounds =>
          exact carries_of_spared hcalm hreacts hallowed (hnext reply) hcarries hpresent
      | other p => exact carries_of_spared hcalm hreacts hallowed (hnext reply) hcarries hpresent

structure Accounted (store : StoreRef) (stages : List (Stage CounterTask Settlement))
    (y : CounterYard) : Prop where
  calm : y.world.Calm
  orderly : y.Orderly (CounterTask.At store) (CounterTask.allowed store) (CounterTask.ends store)
  carries : ∀ key, Carries (total store key stages) (counter store key y)

theorem accounted_start (store : StoreRef) (clock : Instant) :
    Accounted store [] (Yard.start clock) where
  calm := World.calm_start clock
  orderly := Yard.orderly_start clock
  carries _ := rfl

theorem Accounted.step (h : Accounted store stages y)
    (hstep : Yard.Step CounterTask.program (CounterTask.At store) y event last) :
    Accounted store (⟨event, last⟩ :: stages) last where
  calm := hstep.calm h.calm
  orderly := h.orderly.step (fun _ hat => CounterTask.conforms hat) hstep
  carries key := by
    by_cases hpresent : counter store key last = none
    · rw [total_cons_of_none hpresent, hpresent]
      rfl
    · rw [total_cons_of_some hpresent]
      exact carries_of_step h.calm h.orderly hstep (h.carries key) hpresent

theorem accounted_of_trail
    (htrail : Yard.Trail CounterTask.program (CounterTask.At store) (Yard.start clock) stages y) :
    Accounted store stages y := by
  induction htrail with
  | refl => exact accounted_start store clock
  | step _ hstep ih => exact ih.step hstep

/-- Whenever a counter is read, it is the sum of the calls of those transactions that have been
committed since there was last no such counter. -/
theorem counter_eq_total {c : Connection}
    (htrail : Yard.Trail CounterTask.program (CounterTask.At store) (Yard.start clock) stages y)
    (hstore : c.store = store) (hleast : Json.least64 ≤ total store key stages)
    (hgreatest : total store key stages ≤ Json.greatest64) :
    (y.world.run (c.counter key).run).1 = .ok (total store key stages) := by
  subst hstore
  have haccounted := accounted_of_trail htrail
  obtain ⟨found, hdecode, hvalue⟩ :=
    decode_of_carries (haccounted.carries key) hleast hgreatest (Document.idFor Counter key)
  have hload := World.run_connection_load haccounted.calm c Counter key
  change (y.world.run (c.load Counter key >>= fun found =>
    pure ((found.map (·.value)).getD 0) : Action Int).run).1 = _
  rw [World.run_action_bind (hload.trans (congrArg (·, y.world) hdecode)), ← hvalue]
  rfl

/-- Two transactions saw no counter and one of them created it. The other one failed and was tried
again, and the counter expired before the second try was committed. -/
theorem counter_recreated :
    let c := Sample.connection
    let adding (delta : Int) (length : Option Duration) (next : CounterPlan) : CounterPlan :=
      .add "k" delta length fun _ => next
    let created := adding 1 (some ⟨1000000000⟩) (adding 1 none .commit)
    let moves : List (Move CounterTask) :=
      Move.whole 0 (.transact c (adding (-1) none .commit)) 1 ++
        Move.whole 1 (.transact c created) 3 ++ [.turn 0] ++
        Move.whole 2 (.transact c (adding (-1) none .commit)) 1 ++ [.clock (timeNamed "max")] ++
        Move.whole 3 (.reap ⟨⟨0⟩, 10⟩ 5) 2 ++ [.turn 2] ++
        Move.whole 4 (.transact c (adding 7 none .drop)) 1 ++
        Move.whole 5 (.transact c (adding 3 none .commit)) 2
    let last := (Yard.stroll CounterTask.program moves ([], Yard.start .origin)).2
    (last.world.run (c.counter "k").run).1 = .ok 2 := by
  intro c adding created moves last
  have hmoves : ∀ n task, .begin n task ∈ moves → task.At ⟨0⟩ := by
    intro n task hmem
    simp only [moves, List.mem_append, List.mem_singleton, Move.begin_mem_whole, reduceCtorEq,
      or_false] at hmem
    rcases hmem with (((((⟨_, rfl⟩ | ⟨_, rfl⟩) | ⟨_, rfl⟩) | ⟨_, rfl⟩) | ⟨_, rfl⟩) | ⟨_, rfl⟩) <;>
      trivial
  have htotal : total ⟨0⟩ "k"
      (Yard.stroll CounterTask.program moves ([], Yard.start .origin)).1 = 2 := by decide +kernel
  have hcounter := counter_eq_total (c := c) (Yard.trail_stroll hmoves .refl) rfl
    (by rw [htotal]; decide) (by rw [htotal]; decide)
  rw [htotal] at hcounter
  exact hcounter

end CounterYard

end Jobyard.Simulation
