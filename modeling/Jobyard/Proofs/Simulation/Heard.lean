import Jobyard.Proofs.Simulation.Yard

/-!
What was heard by whom, and when. The log of a thread is what the history of a run has of it, so
that a place in a log is a moment of the run; and the logs have what the tasks may ask for.
-/

namespace Jobyard

def Log.Heeds (allowed : Log → Request → Prop) : Log → Prop
  | [] => True
  | exchange :: earlier => allowed earlier exchange.request ∧ Heeds allowed earlier

namespace Log

variable {allowed : Log → Request → Prop} {log front : Log} {exchange : Exchange}

theorem Heeds.of_append (h : Heeds allowed (front ++ log)) : log.Heeds allowed := by
  induction front with
  | nil => exact h
  | cons _ _ ih => exact ih h.2

theorem Heeds.exists_of_mem (h : log.Heeds allowed) (hmem : exchange ∈ log) :
    ∃ front earlier, log = front ++ exchange :: earlier ∧ allowed earlier exchange.request := by
  obtain ⟨front, earlier, rfl⟩ := List.append_of_mem hmem
  exact ⟨front, earlier, rfl, h.of_append.1⟩

end Log

namespace Simulation

variable {τ ρ : Type}

def Event.heard? (n : Nat) : Event τ ρ → Option Exchange
  | .proceeded k thread => if k = n then thread.log.head? else none
  | _ => none

theorem heard?_proceeded_self (n : Nat) (thread : Thread τ ρ) :
    (Event.proceeded n thread).heard? n = thread.log.head? := if_pos rfl

theorem heard?_proceeded_of_ne {n k : Nat} (thread : Thread τ ρ) (hne : k ≠ n) :
    (Event.proceeded n thread).heard? k = none := if_neg hne.symm

theorem heard?_unique {event : Event τ ρ} {n k : Nat} {exchange other : Exchange}
    (hn : event.heard? n = some exchange) (hk : event.heard? k = some other) :
    k = n ∧ other = exchange := by
  cases event with
  | proceeded m thread =>
      by_cases hm : n = m
      · subst hm
        by_cases hsame : k = n
        · subst hsame
          exact ⟨rfl, Option.some.inj (hk.symm.trans hn)⟩
        · rw [heard?_proceeded_of_ne thread hsame] at hk
          cases hk
      · rw [heard?_proceeded_of_ne thread hm] at hn
        cases hn
  | _ => cases hn

/-- All exchanges of a thread in a history, the latest first. -/
def heard (n : Nat) (history : List (Event τ ρ)) : Log := history.filterMap (·.heard? n)

theorem heard_cons (n : Nat) (event : Event τ ρ) (history : List (Event τ ρ)) :
    heard n (event :: history) = (event.heard? n).toList ++ heard n history := by
  unfold heard
  rw [List.filterMap_cons]
  cases event.heard? n <;> rfl

theorem heard_append (n : Nat) (history more : List (Event τ ρ)) :
    heard n (more ++ history) = heard n more ++ heard n history :=
  List.filterMap_append

theorem mem_heard {n : Nat} {history : List (Event τ ρ)} {exchange : Exchange} :
    exchange ∈ heard n history ↔ ∃ event ∈ history, event.heard? n = some exchange :=
  List.mem_filterMap

theorem split_of_heard {n : Nat} {history : List (Event τ ρ)} {front earlier : Log}
    {exchange : Exchange} (h : heard n history = front ++ exchange :: earlier) :
    ∃ later event before, history = later ++ event :: before ∧ heard n later = front ∧
      event.heard? n = some exchange ∧ heard n before = earlier := by
  obtain ⟨first, second, rfl, hfirst, hsecond⟩ := List.filterMap_eq_append_iff.mp h
  obtain ⟨silent, event, before, rfl, hsilent, hevent, hbefore⟩ :=
    List.filterMap_eq_cons_iff.mp hsecond
  refine ⟨first ++ silent, event, before, (List.append_assoc ..).symm, ?_, hevent, hbefore⟩
  have hnone : heard n silent = [] := List.filterMap_eq_nil_iff.mpr hsilent
  rw [heard_append, hnone, List.append_nil]
  exact hfirst

namespace Yard

variable {program : τ → Program ρ} {admits : τ → Prop} {y middle last : Yard τ ρ}
  {event : Event τ ρ} {history : List (Event τ ρ)}

theorem Step.heard_cases (hstep : Step program admits y event last) :
    ((∀ k, event.heard? k = none) ∧ ∃ time, last.world = { y.world with clock := time }) ∨
      ∃ n exchange, event.heard? n = some exchange ∧
        y.world.Reacts exchange.request exchange.reply last.world := by
  cases hstep with
  | clocked time => exact .inl ⟨fun _ => rfl, time, rfl⟩
  | began n task hfree hadmits => exact .inl ⟨fun _ => rfl, y.world.clock, rfl⟩
  | proceeded n task log request next reply w hthread hreacts =>
      exact .inr ⟨n, ⟨request, reply⟩, heard?_proceeded_self n _, hreacts⟩

theorem Step.reacts_of_heard {n : Nat} {exchange : Exchange}
    (hstep : Step program admits y event last) (hheard : event.heard? n = some exchange) :
    y.world.Reacts exchange.request exchange.reply last.world := by
  rcases hstep.heard_cases with ⟨hnone, _⟩ | ⟨k, other, hother, hreacts⟩
  · rw [hnone n] at hheard
    cases hheard
  · obtain ⟨rfl, rfl⟩ := heard?_unique hheard hother
    exact hreacts

theorem Step.logAt_eq (hstep : Step program admits y event last) (n : Nat) :
    last.logAt n = (event.heard? n).toList ++ y.logAt n := by
  cases hstep with
  | clocked time => rfl
  | began k task hfree hadmits =>
      by_cases hk : n = k
      · subst hk
        rw [logAt_seat_self]
        unfold logAt
        rw [hfree]
        rfl
      · exact logAt_seat_of_ne y _ _ hk
  | proceeded k task log request next reply w hthread hreacts =>
      by_cases hk : n = k
      · subst hk
        rw [logAt_seat_self, logAt_of_threads hthread, heard?_proceeded_self]
        rfl
      · rw [logAt_seat_of_ne y _ _ hk, heard?_proceeded_of_ne _ hk]
        rfl

theorem Run.logAt_eq (hrun : Run program admits y history last) (n : Nat) :
    last.logAt n = heard n history ++ y.logAt n := by
  induction hrun with
  | refl => rfl
  | step _ hstep ih => rw [hstep.logAt_eq n, ih, heard_cons, List.append_assoc]

theorem Run.logAt_start {clock : Instant} (hrun : Run program admits (start clock) history last)
    (n : Nat) : last.logAt n = heard n history :=
  (hrun.logAt_eq n).trans (List.append_nil _)

/-- A turn of a run in which a thread had an exchange, and the yards before and after it. -/
def Turn (program : τ → Program ρ) (admits : τ → Prop) (y : Yard τ ρ)
    (history : List (Event τ ρ)) (last : Yard τ ρ) (n : Nat) (exchange : Exchange)
    (before after : Yard τ ρ) : Prop :=
  ∃ later event earlier, history = later ++ event :: earlier ∧
    Run program admits y earlier before ∧ Step program admits before event after ∧
      Run program admits after later last ∧ event.heard? n = some exchange

theorem Turn.mem_heard {n : Nat} {exchange : Exchange} {before after : Yard τ ρ}
    (h : Turn program admits y history last n exchange before after) :
    exchange ∈ heard n history := by
  obtain ⟨later, event, earlier, rfl, _, _, _, hheard⟩ := h
  exact Simulation.mem_heard.mpr
    ⟨event, List.mem_append_right later List.mem_cons_self, hheard⟩

theorem Run.exists_turn {clock : Instant} {n : Nat} {exchange : Exchange} {front earlier : Log}
    (hrun : Run program admits (start clock) history last)
    (h : heard n history = front ++ exchange :: earlier) :
    ∃ before after, Turn program admits (start clock) history last n exchange before after ∧
      before.logAt n = earlier := by
  obtain ⟨later, event, past, rfl, _, hheard, hpast⟩ := split_of_heard h
  obtain ⟨after, hfirst, hlater⟩ := hrun.split
  cases hfirst with
  | step hbefore hstep =>
      exact ⟨_, after, ⟨later, event, past, rfl, hbefore, hstep, hlater, hheard⟩,
        (hbefore.logAt_start n).trans hpast⟩

theorem Run.exists_thread {clock : Instant} {n : Nat} {exchange : Exchange}
    (hrun : Run program admits (start clock) history last) (hmem : exchange ∈ heard n history) :
    ∃ thread, last.threads n = some thread ∧ thread.log = heard n history := by
  have hlog := hrun.logAt_start n
  cases hthread : last.threads n with
  | some thread => exact ⟨thread, rfl, (logAt_of_threads hthread).symm.trans hlog⟩
  | none =>
      unfold logAt at hlog
      rw [hthread] at hlog
      rw [← hlog] at hmem
      cases hmem

theorem Run.began_of_thread {clock : Instant} {n : Nat} {thread : Thread τ ρ}
    (hrun : Run program admits (start clock) history last)
    (hthread : last.threads n = some thread) : .began n thread.task ∈ history := by
  induction hrun generalizing n thread with
  | refl => cases hthread
  | step _ hstep ih =>
      cases hstep with
      | clocked time => exact List.mem_cons_of_mem _ (ih hthread)
      | began k task hfree hadmits =>
          by_cases hk : n = k
          · subst hk
            rw [threads_seat_self] at hthread
            cases hthread
            exact List.mem_cons_self
          · rw [threads_seat_of_ne _ _ _ hk] at hthread
            exact List.mem_cons_of_mem _ (ih hthread)
      | proceeded k task log request next reply w hturn hreacts =>
          by_cases hk : n = k
          · subst hk
            rw [threads_seat_self] at hthread
            cases hthread
            have hbegan := ih hturn
            exact List.mem_cons_of_mem _ hbegan
          · rw [threads_seat_of_ne _ _ _ hk] at hthread
            exact List.mem_cons_of_mem _ (ih hthread)

theorem Run.calm (hrun : Run program admits y history last) (hcalm : y.world.Calm) :
    last.world.Calm := by
  induction hrun with
  | refl => exact hcalm
  | step _ hstep ih => exact hstep.calm ih

theorem Run.apart {clock : Instant} (hrun : Run program admits (start clock) history last) :
    last.Apart := by
  induction hrun with
  | refl => exact apart_start clock
  | step hrun hstep ih => exact ih.step (hrun.calm (World.calm_start clock)) hstep

variable {allowed : τ → Log → Request → Prop} {ends : τ → Log → ρ → Prop}

/-- In a run every thread has asked for what its task allows, and goes on like that. -/
theorem Run.conduct {clock : Instant} (hrun : Run program admits (start clock) history last)
    (hprogram : ∀ task, admits task → (program task).Conforms (allowed task) (ends task) [])
    {n : Nat} {thread : Thread τ ρ} (hthread : last.threads n = some thread) :
    admits thread.task ∧ thread.log.Heeds (allowed thread.task) ∧
      thread.rest.Conforms (allowed thread.task) (ends thread.task) thread.log := by
  induction hrun generalizing n thread with
  | refl => cases hthread
  | step _ hstep ih =>
      cases hstep with
      | clocked time => exact ih hthread
      | began k task hfree hadmits =>
          rcases threads_seat_cases hthread with rfl | hold
          · exact ⟨hadmits, trivial, hprogram task hadmits⟩
          · exact ih hold
      | proceeded k task log request next reply w hturn hreacts =>
          rcases threads_seat_cases hthread with rfl | hold
          · obtain ⟨hadmits, hheeds, hallowed, hnext⟩ := ih hturn
            exact ⟨hadmits, ⟨hallowed, hheeds⟩, hnext reply⟩
          · exact ih hold

theorem Run.conduct_of_heard {clock : Instant} {n : Nat} {exchange : Exchange}
    (hrun : Run program admits (start clock) history last)
    (hprogram : ∀ task, admits task → (program task).Conforms (allowed task) (ends task) [])
    (hmem : exchange ∈ heard n history) :
    ∃ thread, last.threads n = some thread ∧ (heard n history).Heeds (allowed thread.task) ∧
      thread.rest.Conforms (allowed thread.task) (ends thread.task) (heard n history) := by
  obtain ⟨thread, hthread, hlog⟩ := hrun.exists_thread hmem
  obtain ⟨_, hheeds, hends⟩ := hrun.conduct hprogram hthread
  rw [hlog] at hheeds hends
  exact ⟨thread, hthread, hheeds, hends⟩

end Yard

end Simulation

end Jobyard
