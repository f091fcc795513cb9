import Jobyard.Proofs.Program.Conduct
import Jobyard.Proofs.Simulation.Calm

/-!
Programs side by side in one world. They take turns request by request: while one request is
answered, all other programs stand still. Between the turns programs begin and the clock is set,
forward or back.
-/

namespace Jobyard.Simulation

/-- How a world may answer: fresh texts are any that were not given out before, and a call of a
store may fail without an effect. -/
def World.Reacts (w : World) : (request : Request) → request.Reply → World → Prop
  | .freshText, text, next => text ∉ w.issued ∧ next = { w with issued := text :: w.issued }
  | .store store call, reply, next =>
    (reply = (w.call store call).1 ∧ next = (w.call store call).2) ∨
      ∃ e, reply = .error e ∧ next = w
  | request, reply, next =>
    reply = ((answer request).run w).1 ∧ next = ((answer request).run w).2

namespace World

structure Quiet (w next : World) : Prop where
  stores : next.stores = w.stores
  hooks : next.hooks = w.hooks
  deadline : next.deadline = w.deadline
  issued : next.issued = w.issued

theorem quiet_self (w : World) : Quiet w w := ⟨rfl, rfl, rfl, rfl⟩

theorem Quiet.memory {w next : World} (h : Quiet w next) (store : StoreRef) :
    next.memory store = w.memory store := by
  unfold World.memory
  rw [h.stores]

theorem Quiet.calm {w next : World} (h : Quiet w next) (hcalm : w.Calm) : next.Calm :=
  ⟨h.hooks.trans hcalm.hooks, h.deadline.trans hcalm.deadline⟩

/-- Requests other than calls of stores and draws of fresh texts reach signals, tokens and the
host only. -/
theorem quiet_of_reacts {w next : World} {request : Request} {reply : request.Reply}
    (h : w.Reacts request reply next) (hfresh : request ≠ .freshText)
    (hstore : ∀ store call, request ≠ .store store call) : Quiet w next := by
  cases request with
  | store store call => exact absurd rfl (hstore store call)
  | freshText => exact absurd rfl hfresh
  | watch token signal =>
      rw [h.2]
      change Quiet w (w.watch token signal)
      unfold World.watch
      simp only
      split <;> exact ⟨rfl, rfl, rfl, rfl⟩
  | _ =>
      rw [h.2]
      exact ⟨rfl, rfl, rfl, rfl⟩

theorem reacts_store {w next : World} {store : StoreRef} {call : StoreCall}
    {reply : Except StoreError call.Answer} (hcalm : w.Calm)
    (h : w.Reacts (.store store call) reply next) :
    (reply = ((w.memory store).answer call).1 ∧
        Follows w next store ((w.memory store).after call)) ∨
      ∃ e, reply = .error e ∧ next = w := by
  rcases h with ⟨hreply, hnext⟩ | hfailed
  · left
    rw [hreply, hnext, call_answer hcalm]
    exact ⟨rfl, call_follows hcalm store call⟩
  · exact .inr hfailed

theorem issued_of_reacts {w next : World} {request : Request} {reply : request.Reply}
    (hcalm : w.Calm) (h : w.Reacts request reply next) (hfresh : request ≠ .freshText) :
    next.issued = w.issued := by
  cases request with
  | store store call =>
      rcases reacts_store hcalm h with ⟨_, hfollows⟩ | ⟨_, _, hsame⟩
      · exact hfollows.issued
      · rw [hsame]
  | freshText => exact absurd rfl hfresh
  | _ => exact (quiet_of_reacts h (by simp) (by simp)).issued

theorem calm_of_reacts {w next : World} {request : Request} {reply : request.Reply}
    (hcalm : w.Calm) (h : w.Reacts request reply next) : next.Calm := by
  cases request with
  | store store call =>
      rcases reacts_store hcalm h with ⟨_, hfollows⟩ | ⟨_, _, hsame⟩
      · exact hfollows.calm hcalm
      · rw [hsame]
        exact hcalm
  | freshText =>
      rw [h.2]
      exact ⟨hcalm.hooks, hcalm.deadline⟩
  | _ => exact (quiet_of_reacts h (by simp) (by simp)).calm hcalm

theorem commit_of_accepted {w next : World} {request : Request} {reply : request.Reply}
    {batch : Batch} (hcalm : w.Calm) (h : w.Reacts request reply next)
    (haccepted : Exchange.accepted? ⟨request, reply⟩ = some batch) :
    ∃ target, request = .store target (.commit batch) ∧
      (w.memory target).commit batch = .ok (next.memory target) ∧
      ∀ other, other ≠ target → next.memory other = w.memory other := by
  cases request with
  | store target call =>
      cases call with
      | commit sent =>
          cases reply with
          | error e => cases haccepted
          | ok _ =>
              cases haccepted
              rcases reacts_store hcalm h with ⟨hreply, hfollows⟩ | ⟨e, herror, _⟩
              · have hok := Memory.isOk_commit_of_answer hreply.symm
                refine ⟨target, rfl, ?_, hfollows.others⟩
                rw [hfollows.memory]
                exact Memory.commit_eq_ok_of_isOk hok
              · cases herror
      | _ => cases haccepted
  | _ => cases haccepted

/-- Without an accepted batch a store changes by purges and by being cleared only. -/
theorem memory_of_unaccepted {w next : World} {request : Request} {reply : request.Reply}
    (hcalm : w.Calm) (h : w.Reacts request reply next)
    (hunaccepted : Exchange.accepted? ⟨request, reply⟩ = none) (store : StoreRef) :
    next.memory store = w.memory store ∨
      (∃ now limit, request = .store store (.purge now limit) ∧
        next.memory store = ((w.memory store).purge now limit).1) ∨
      request = .store store .destroy := by
  cases request with
  | freshText =>
      rw [h.2]
      exact .inl rfl
  | store target call =>
      rcases reacts_store hcalm h with ⟨hreply, hfollows⟩ | ⟨e, _, hsame⟩
      · by_cases htarget : store = target
        · subst htarget
          rw [hfollows.memory]
          cases call with
          | destroy => exact .inr (.inr rfl)
          | purge now limit => exact .inr (.inl ⟨now, limit, rfl, rfl⟩)
          | commit batch =>
              cases reply with
              | ok _ => cases hunaccepted
              | error e =>
                  left
                  cases hcommit : (w.memory store).commit batch with
                  | error e => exact Memory.after_commit_of_error hcommit
                  | ok next =>
                      simp only [Memory.answer, hcommit] at hreply
                      cases hreply
          | _ => exact .inl rfl
        · exact .inl (hfollows.others store htarget)
      · rw [hsame]
        exact .inl rfl
  | _ => exact .inl ((quiet_of_reacts h (by simp) (by simp)).memory store)

theorem find?_of_unaccepted {w next : World} {request : Request} {reply : request.Reply}
    (hcalm : w.Calm) (h : w.Reacts request reply next)
    (hunaccepted : Exchange.accepted? ⟨request, reply⟩ = none) (store : StoreRef) (id : DocId) :
    (next.memory store).find? id = (w.memory store).find? id ∨
      (next.memory store).find? id = none := by
  rcases memory_of_unaccepted hcalm h hunaccepted store with
    hsame | ⟨now, limit, _, hpurged⟩ | hdestroy
  · rw [hsame]
    exact .inl rfl
  · rw [hpurged]
    exact (Memory.find?_purge (w.memory store) now limit id).symm
  · subst hdestroy
    rcases reacts_store hcalm h with ⟨_, hfollows⟩ | ⟨_, _, hsame⟩
    · rw [hfollows.memory]
      exact .inr rfl
    · rw [hsame]
      exact .inl rfl

theorem find?_of_loads {w next : World} {request : Request} {reply : request.Reply}
    {store : StoreRef} {id : DocId} {d : Stored} (hcalm : w.Calm)
    (h : w.Reacts request reply next) (hloads : Exchange.Loads ⟨request, reply⟩ store id d) :
    (w.memory store).find? id = some d ∧ next.memory store = w.memory store := by
  cases request with
  | store target call =>
      cases call with
      | load ids =>
          rcases reacts_store hcalm h with ⟨hreply, hfollows⟩ | ⟨e, herror, _⟩
          · rw [hreply] at hloads
            obtain ⟨rfl, hmem⟩ := hloads
            exact ⟨(Memory.mem_zip_load hmem).symm, hfollows.memory⟩
          · rw [herror] at hloads
            cases hloads
      | _ => cases hloads
  | _ => cases hloads

theorem found_of_finds {w next : World} {request : Request} {reply : request.Reply}
    {store : StoreRef} {collection : String} {id : DocId} (hcalm : w.Calm)
    (hkeyed : (w.memory store).Keyed) (h : w.Reacts request reply next)
    (hfinds : Exchange.Finds ⟨request, reply⟩ store collection id) :
    ∃ query d, request = .store store (.query query) ∧ query.collection = collection ∧
      d.id = id ∧ (w.memory store).find? id = some d ∧ query.accepts d = true := by
  cases request with
  | store target call =>
      cases call with
      | query query =>
          cases reply with
          | error e => cases hfinds
          | ok found =>
              obtain ⟨rfl, hcollection, d, hd, rfl⟩ := hfinds
              rcases reacts_store hcalm h with ⟨hreply, _⟩ | ⟨e, herror, _⟩
              · obtain ⟨hfound, haccepts⟩ := Memory.mem_of_query hkeyed hreply.symm hd
                exact ⟨query, d, rfl, hcollection, rfl, hfound, haccepts⟩
              · cases herror
      | _ => cases hfinds
  | _ => cases hfinds

theorem collection_of_finds {w next : World} {request : Request} {reply : request.Reply}
    {store : StoreRef} {collection : String} {id : DocId} (hcalm : w.Calm)
    (hkeyed : (w.memory store).Keyed) (h : w.Reacts request reply next)
    (hfinds : Exchange.Finds ⟨request, reply⟩ store collection id) :
    id.collection = collection := by
  obtain ⟨query, d, _, rfl, rfl, _, haccepts⟩ := found_of_finds hcalm hkeyed h hfinds
  exact beq_iff_eq.mp (Bool.and_eq_true_iff.mp haccepts).1

theorem memory_of_reacts {w next : World} {request : Request} {reply : request.Reply}
    (hcalm : w.Calm) (h : w.Reacts request reply next) (store : StoreRef) :
    next.memory store = w.memory store ∨
      ∃ call, next.memory store = (w.memory store).after call := by
  cases request with
  | freshText =>
      rw [h.2]
      exact .inl rfl
  | store target call =>
      rcases reacts_store hcalm h with ⟨_, hfollows⟩ | ⟨_, _, hsame⟩
      · by_cases htarget : store = target
        · subst htarget
          exact .inr ⟨call, hfollows.memory⟩
        · exact .inl (hfollows.others store htarget)
      · rw [hsame]
        exact .inl rfl
  | _ => exact .inl ((quiet_of_reacts h (by simp) (by simp)).memory store)

theorem keyed_of_reacts {w next : World} {request : Request} {reply : request.Reply}
    {store : StoreRef} (hcalm : w.Calm) (hkeyed : (w.memory store).Keyed)
    (h : w.Reacts request reply next) : (next.memory store).Keyed := by
  rcases memory_of_reacts hcalm h store with hsame | ⟨call, hafter⟩
  · rwa [hsame]
  · rw [hafter]
    exact hkeyed.after call

end World

/-- A program under way: the task it was begun for, its exchanges so far, and the rest of it. -/
structure Thread (τ ρ : Type) where
  task : τ
  log : Log
  rest : Program ρ

structure Yard (τ ρ : Type) where
  world : World
  threads : Nat → Option (Thread τ ρ)

/-- One turn. A thread that proceeded is as it is afterwards, with the answer at the head of its
log. -/
inductive Event (τ ρ : Type)
  | began (n : Nat) (task : τ)
  | clocked (time : Instant)
  | proceeded (n : Nat) (thread : Thread τ ρ)

namespace Yard

variable {τ ρ : Type}

def start (clock : Instant) : Yard τ ρ := ⟨.start clock, fun _ => none⟩

def seat (y : Yard τ ρ) (n : Nat) (thread : Thread τ ρ) (w : World) : Yard τ ρ :=
  ⟨w, fun k => if k = n then some thread else y.threads k⟩

theorem threads_seat_self (y : Yard τ ρ) (n : Nat) (thread : Thread τ ρ) (w : World) :
    (y.seat n thread w).threads n = some thread := if_pos rfl

theorem threads_seat_of_ne (y : Yard τ ρ) {n k : Nat} (thread : Thread τ ρ) (w : World)
    (hne : k ≠ n) : (y.seat n thread w).threads k = y.threads k := if_neg hne

theorem threads_seat_cases {y : Yard τ ρ} {n k : Nat} {thread other : Thread τ ρ} {w : World}
    (h : (y.seat n thread w).threads k = some other) :
    other = thread ∨ y.threads k = some other := by
  by_cases hk : k = n
  · subst hk
    rw [threads_seat_self] at h
    cases h
    exact .inl rfl
  · rw [threads_seat_of_ne _ _ _ hk] at h
    exact .inr h

inductive Step (program : τ → Program ρ) (admits : τ → Prop) (y : Yard τ ρ) :
    Event τ ρ → Yard τ ρ → Prop
  | began (n : Nat) (task : τ) (hfree : y.threads n = none) (hadmits : admits task) :
    Step program admits y (.began n task) (y.seat n ⟨task, [], program task⟩ y.world)
  | clocked (time : Instant) :
    Step program admits y (.clocked time) ⟨{ y.world with clock := time }, y.threads⟩
  | proceeded (n : Nat) (task : τ) (log : Log) (request : Request)
      (next : request.Reply → Program ρ) (reply : request.Reply) (w : World)
      (hthread : y.threads n = some ⟨task, log, .call request next⟩)
      (hreacts : y.world.Reacts request reply w) :
    Step program admits y (.proceeded n ⟨task, ⟨request, reply⟩ :: log, next reply⟩)
      (y.seat n ⟨task, ⟨request, reply⟩ :: log, next reply⟩ w)

def logAt (y : Yard τ ρ) (n : Nat) : Log := (y.threads n).elim [] (·.log)

theorem logAt_of_threads {y : Yard τ ρ} {n : Nat} {thread : Thread τ ρ}
    (h : y.threads n = some thread) : y.logAt n = thread.log := by
  unfold logAt
  rw [h]
  rfl

theorem logAt_seat_self (y : Yard τ ρ) (n : Nat) (thread : Thread τ ρ) (w : World) :
    (y.seat n thread w).logAt n = thread.log :=
  logAt_of_threads (y.threads_seat_self n thread w)

theorem logAt_seat_of_ne (y : Yard τ ρ) {n k : Nat} (thread : Thread τ ρ) (w : World)
    (hne : k ≠ n) : (y.seat n thread w).logAt k = y.logAt k := by
  unfold logAt
  rw [threads_seat_of_ne y thread w hne]

theorem Step.log_cases {program : τ → Program ρ} {admits : τ → Prop} {y last : Yard τ ρ}
    {event : Event τ ρ} (hstep : Step program admits y event last) :
    ((∀ k, last.logAt k = y.logAt k) ∧ World.Quiet y.world last.world) ∨
      ∃ n request, ∃ reply : request.Reply, y.world.Reacts request reply last.world ∧
        last.logAt n = ⟨request, reply⟩ :: y.logAt n ∧
        ∀ k, k ≠ n → last.logAt k = y.logAt k := by
  cases hstep with
  | clocked time => exact .inl ⟨fun _ => rfl, ⟨rfl, rfl, rfl, rfl⟩⟩
  | began n task hfree hadmits =>
      refine .inl ⟨fun k => ?_, World.quiet_self _⟩
      by_cases hk : k = n
      · subst hk
        rw [logAt_seat_self]
        unfold logAt
        rw [hfree]
        rfl
      · exact logAt_seat_of_ne y _ _ hk
  | proceeded n task log request next reply w hthread hreacts =>
      refine .inr ⟨n, request, reply, hreacts, ?_, fun k hk => logAt_seat_of_ne y _ _ hk⟩
      rw [logAt_seat_self, logAt_of_threads hthread]

theorem Step.calm {program : τ → Program ρ} {admits : τ → Prop} {y last : Yard τ ρ}
    {event : Event τ ρ} (hcalm : y.world.Calm) (hstep : Step program admits y event last) :
    last.world.Calm := by
  rcases hstep.log_cases with ⟨_, hquiet⟩ | ⟨_, _, _, hreacts, _⟩
  · exact hquiet.calm hcalm
  · exact World.calm_of_reacts hcalm hreacts

theorem Step.mem_logAt {program : τ → Program ρ} {admits : τ → Prop} {y last : Yard τ ρ}
    {event : Event τ ρ} (hstep : Step program admits y event last) {n : Nat} {exchange : Exchange}
    (hmem : exchange ∈ y.logAt n) : exchange ∈ last.logAt n := by
  rcases hstep.log_cases with ⟨hsame, _⟩ | ⟨k, _, _, _, hself, hothers⟩
  · rwa [hsame n]
  · by_cases hn : n = k
    · subst hn
      rw [hself]
      exact List.mem_cons_of_mem _ hmem
    · rwa [hothers n hn]

theorem Step.logAt_cases {program : τ → Program ρ} {admits : τ → Prop} {y last : Yard τ ρ}
    {event : Event τ ρ} (hstep : Step program admits y event last) {n : Nat} {exchange : Exchange}
    (hmem : exchange ∈ last.logAt n) :
    exchange ∈ y.logAt n ∨ ∃ request, ∃ reply : request.Reply, exchange = ⟨request, reply⟩ ∧
      y.world.Reacts request reply last.world := by
  rcases hstep.log_cases with ⟨hsame, _⟩ | ⟨k, request, reply, hreacts, hself, hothers⟩
  · exact .inl (hsame n ▸ hmem)
  · by_cases hn : n = k
    · subst hn
      rw [hself] at hmem
      rcases List.mem_cons.mp hmem with heq | hearlier
      · exact .inr ⟨request, reply, heq, hreacts⟩
      · exact .inl hearlier
    · exact .inl (hothers n hn ▸ hmem)

theorem Step.keyed {program : τ → Program ρ} {admits : τ → Prop} {y last : Yard τ ρ}
    {event : Event τ ρ} {store : StoreRef} (hcalm : y.world.Calm)
    (hkeyed : (y.world.memory store).Keyed) (hstep : Step program admits y event last) :
    (last.world.memory store).Keyed := by
  rcases hstep.log_cases with ⟨_, hquiet⟩ | ⟨_, _, _, hreacts, _⟩
  · rw [hquiet.memory store]
    exact hkeyed
  · exact World.keyed_of_reacts hcalm hkeyed hreacts

structure Apart (y : Yard τ ρ) : Prop where
  issued : ∀ n, ∀ text ∈ (y.logAt n).drawn, text ∈ y.world.issued
  nodup : ∀ n, (y.logAt n).drawn.Nodup
  apart : ∀ n k text, text ∈ (y.logAt n).drawn → text ∈ (y.logAt k).drawn → n = k

theorem apart_start (clock : Instant) : (start clock : Yard τ ρ).Apart where
  issued _ _ h := nomatch h
  nodup _ := List.nodup_nil
  apart _ _ _ h := nomatch h

theorem Apart.of_drawn {y last : Yard τ ρ} (h : y.Apart)
    (hdrawn : ∀ n, (last.logAt n).drawn = (y.logAt n).drawn)
    (hissued : last.world.issued = y.world.issued) : last.Apart where
  issued n text hmem := by
    rw [hdrawn n] at hmem
    rw [hissued]
    exact h.issued n text hmem
  nodup n := by
    rw [hdrawn n]
    exact h.nodup n
  apart n k text hn hk := by
    rw [hdrawn n] at hn
    rw [hdrawn k] at hk
    exact h.apart n k text hn hk

theorem Apart.draw {y last : Yard τ ρ} (h : y.Apart) {n : Nat} {text : String}
    (hfresh : text ∉ y.world.issued)
    (hself : (last.logAt n).drawn = text :: (y.logAt n).drawn)
    (hothers : ∀ k, k ≠ n → (last.logAt k).drawn = (y.logAt k).drawn)
    (hissued : last.world.issued = text :: y.world.issued) : last.Apart := by
  have hnew : ∀ k, text ∉ (y.logAt k).drawn := fun k hmem => hfresh (h.issued k text hmem)
  -- The new text is at place n and nowhere else; all other texts are where they were.
  have hcases : ∀ k other, other ∈ (last.logAt k).drawn →
      (k = n ∧ other = text) ∨ other ∈ (y.logAt k).drawn := by
    intro k other hmem
    by_cases hk : k = n
    · subst hk
      rw [hself] at hmem
      rcases List.mem_cons.mp hmem with hfirst | hrest
      · exact .inl ⟨rfl, hfirst⟩
      · exact .inr hrest
    · rw [hothers k hk] at hmem
      exact .inr hmem
  constructor
  · intro k other hmem
    rw [hissued]
    rcases hcases k other hmem with ⟨_, rfl⟩ | hold
    · exact List.mem_cons_self
    · exact List.mem_cons_of_mem _ (h.issued k other hold)
  · intro k
    by_cases hk : k = n
    · subst hk
      rw [hself]
      exact List.nodup_cons.mpr ⟨hnew k, h.nodup k⟩
    · rw [hothers k hk]
      exact h.nodup k
  · intro j k other hj hk
    rcases hcases j other hj with ⟨hjn, rfl⟩ | hj
    · rcases hcases k other hk with ⟨hkn, _⟩ | hk
      · exact hjn.trans hkn.symm
      · exact absurd hk (hnew k)
    · rcases hcases k other hk with ⟨_, rfl⟩ | hk
      · exact absurd hj (hnew j)
      · exact h.apart j k other hj hk

theorem Apart.step {program : τ → Program ρ} {admits : τ → Prop} {y last : Yard τ ρ}
    {event : Event τ ρ} (h : y.Apart) (hcalm : y.world.Calm)
    (hstep : Step program admits y event last) : last.Apart := by
  rcases hstep.log_cases with ⟨hsame, hquiet⟩ | ⟨n, request, reply, hreacts, hself, hothers⟩
  · exact h.of_drawn (fun k => by rw [hsame k]) hquiet.issued
  · by_cases hfresh : request = .freshText
    · subst hfresh
      obtain ⟨hnew, hnext⟩ := hreacts
      refine h.draw hnew (by rw [hself]; rfl) (fun k hk => by rw [hothers k hk]) ?_
      rw [hnext]
    · refine h.of_drawn (fun k => ?_) (World.issued_of_reacts hcalm hreacts hfresh)
      by_cases hk : k = n
      · subst hk
        rw [hself, Log.drawn_of_ne_freshText hfresh]
      · rw [hothers k hk]

/-- The key of an identifier was drawn by a program that has written since. -/
def Published (y : Yard τ ρ) (id : DocId) : Prop :=
  ∃ n, id.key ∈ (y.logAt n).drawn ∧ (y.logAt n).Committed

theorem Published.step {program : τ → Program ρ} {admits : τ → Prop} {y last : Yard τ ρ}
    {event : Event τ ρ} {id : DocId} (h : y.Published id)
    (hstep : Step program admits y event last) : last.Published id := by
  obtain ⟨n, hdrawn, exchange, hmem, haccepted⟩ := h
  refine ⟨n, ?_, exchange, hstep.mem_logAt hmem, haccepted⟩
  exact Log.mem_drawn_iff.mpr (hstep.mem_logAt (Log.mem_drawn_iff.mp hdrawn))

/-- Turns one after the other, the latest first in the history. -/
inductive Run (program : τ → Program ρ) (admits : τ → Prop) (y : Yard τ ρ) :
    List (Event τ ρ) → Yard τ ρ → Prop
  | refl : Run program admits y [] y
  | step {history : List (Event τ ρ)} {event : Event τ ρ} {middle last : Yard τ ρ} :
    Run program admits y history middle → Step program admits middle event last →
      Run program admits y (event :: history) last

variable {program : τ → Program ρ} {admits : τ → Prop} {y middle last : Yard τ ρ}
  {history more : List (Event τ ρ)}

theorem Run.admits_of_began (hrun : Run program admits y history last) {n : Nat} {task : τ}
    (hbegan : .began n task ∈ history) : admits task := by
  induction hrun with
  | refl => cases hbegan
  | step _ hstep ih =>
      rcases List.mem_cons.mp hbegan with heq | hearlier
      · cases hstep with
        | began k other hfree hadmits =>
            cases heq
            exact hadmits
        | clocked => cases heq
        | proceeded => cases heq
      · exact ih hearlier

theorem Run.restrict {holds : τ → Prop} (hrun : Run program admits y history last)
    (hbegun : ∀ n task, .began n task ∈ history → holds task) :
    Run program (fun task => admits task ∧ holds task) y history last := by
  induction hrun with
  | refl => exact .refl
  | step _ hstep ih =>
      refine .step (ih fun n task hmem => hbegun n task (List.mem_cons_of_mem _ hmem)) ?_
      cases hstep with
      | began n task hfree hadmits =>
          exact .began n task hfree ⟨hadmits, hbegun n task List.mem_cons_self⟩
      | clocked time => exact .clocked time
      | proceeded n task log request next reply w hthread hreacts =>
          exact .proceeded n task log request next reply w hthread hreacts

theorem Run.append (hfirst : Run program admits y history middle)
    (hmore : Run program admits middle more last) :
    Run program admits y (more ++ history) last := by
  induction hmore with
  | refl => exact hfirst
  | step _ hstep ih => exact .step ih hstep

theorem Run.split (hrun : Run program admits y (more ++ history) last) :
    ∃ middle, Run program admits y history middle ∧ Run program admits middle more last := by
  induction more generalizing last with
  | nil => exact ⟨last, hrun, .refl⟩
  | cons event rest ih =>
      cases hrun with
      | step hrest hstep =>
          obtain ⟨middle, hfirst, hmore⟩ := ih hrest
          exact ⟨middle, hfirst, .step hmore hstep⟩

theorem Step.mono {wider : τ → Prop} (hwider : ∀ task, admits task → wider task)
    {event : Event τ ρ} (hstep : Step program admits y event last) :
    Step program wider y event last := by
  cases hstep with
  | began n task hfree hadmits => exact .began n task hfree (hwider task hadmits)
  | clocked time => exact .clocked time
  | proceeded n task log request next reply w hthread hreacts =>
      exact .proceeded n task log request next reply w hthread hreacts

theorem Run.mono {wider : τ → Prop} (hwider : ∀ task, admits task → wider task)
    (hrun : Run program admits y history last) : Run program wider y history last := by
  induction hrun with
  | refl => exact .refl
  | step _ hstep ih => exact .step ih (hstep.mono hwider)

theorem Run.invariant {inv : List (Event τ ρ) → Yard τ ρ → Prop} (hstart : inv [] y)
    (hstep : ∀ history event middle last, inv history middle →
      Step program admits middle event last → inv (event :: history) last)
    (hrun : Run program admits y history last) : inv history last := by
  induction hrun with
  | refl => exact hstart
  | step _ hnext ih => exact hstep _ _ _ _ ih hnext

theorem Run.admitted {clock : Instant} (hrun : Run program admits (start clock) history last) :
    (∀ n thread, last.threads n = some thread → admits thread.task) ∧
      ∀ n thread, .proceeded n thread ∈ history → admits thread.task := by
  induction hrun with
  | refl => exact ⟨fun _ _ h => (nomatch h), fun _ _ h => nomatch h⟩
  | step _ hstep ih =>
      obtain ⟨hseated, hturns⟩ := ih
      cases hstep with
      | clocked time => exact ⟨hseated, fun n thread hmem => hturns n thread (by simpa using hmem)⟩
      | began n task hfree hadmits =>
          refine ⟨fun k other hother => ?_, fun k thread hmem => ?_⟩
          · rcases threads_seat_cases hother with rfl | hold
            · exact hadmits
            · exact hseated k other hold
          · exact hturns k thread (by simpa using hmem)
      | proceeded n task log request next reply w hthread hreacts =>
          have hadmits := hseated n _ hthread
          refine ⟨fun k other hother => ?_, fun k thread hmem => ?_⟩
          · rcases threads_seat_cases hother with rfl | hold
            · exact hadmits
            · exact hseated k other hold
          · rcases List.mem_cons.mp hmem with heq | hearlier
            · cases heq
              exact hadmits
            · exact hturns k thread hearlier

/-- Every thread was begun for an admitted task and conducts itself as the task demands. -/
def Orderly (admits : τ → Prop) (allowed : τ → Log → Request → Prop) (ends : τ → Log → ρ → Prop)
    (y : Yard τ ρ) : Prop :=
  ∀ n thread, y.threads n = some thread → admits thread.task ∧
    thread.rest.Conforms (allowed thread.task) (ends thread.task) thread.log

variable {allowed : τ → Log → Request → Prop} {ends : τ → Log → ρ → Prop}

theorem orderly_start (clock : Instant) : (start clock).Orderly admits allowed ends :=
  fun _ _ h => nomatch h

theorem Orderly.step {event : Event τ ρ} (h : y.Orderly admits allowed ends)
    (hprogram : ∀ task, admits task →
      (program task).Conforms (allowed task) (ends task) [])
    (hstep : Step program admits y event last) : last.Orderly admits allowed ends := by
  cases hstep with
  | clocked time => exact h
  | began n task hfree hadmits =>
      intro k other hother
      rcases threads_seat_cases hother with rfl | hold
      · exact ⟨hadmits, hprogram task hadmits⟩
      · exact h k other hold
  | proceeded n task log request next reply w hthread hreacts =>
      intro k other hother
      rcases threads_seat_cases hother with rfl | hold
      · obtain ⟨hadmits, _, hnext⟩ := h n _ hthread
        exact ⟨hadmits, hnext reply⟩
      · exact h k other hold

end Yard

end Jobyard.Simulation
