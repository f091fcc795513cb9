import Jobyard.Proofs.Queue.Party
import Jobyard.Proofs.Queue.Wiring
import Jobyard.Proofs.Simulation.Play
import Jobyard.Proofs.Simulation.Signal

/-!
Waiting consumers. A consumer that waits on a generation that is still the present one has been
offered every entry that was announced to it: the entry was in the store when the consumer last
began to look.
-/

namespace Jobyard

def Exchange.Touches (store : StoreRef) (id : DocId) : Exchange → Prop
  | ⟨.store target (.commit batch), .ok _⟩ => target = store ∧ ∃ w ∈ batch, w.id = id
  | ⟨.store target .destroy, .ok _⟩ => target = store
  | _ => False

def Exchange.readsGeneration : Exchange → Bool
  | ⟨.generation _, _⟩ => true
  | _ => false

theorem JobQueue.not_readsGeneration_of_tries {q : JobQueue} {exchange : Exchange}
    (h : q.Tries exchange.request) : ¬ exchange.readsGeneration := by
  obtain ⟨request, reply⟩ := exchange
  cases request with
  | generation signal => cases h
  | _ => exact Bool.false_ne_true

namespace Simulation

variable {store : StoreRef} {id : DocId} {d : Stored}

namespace World

variable {w next : World} {request : Request} {reply : request.Reply}

theorem find?_of_untouched (hcalm : w.Calm) (hkeyed : (w.memory store).Keyed)
    (h : w.Reacts request reply next) (huntouched : ¬ Exchange.Touches store id ⟨request, reply⟩)
    (hfound : (w.memory store).find? id = some d) (hexpiry : d.expiresAt = none) :
    (next.memory store).find? id = some d := by
  cases haccepted : Exchange.accepted? ⟨request, reply⟩ with
  | some batch =>
      obtain ⟨target, rfl, hcommit, hothers⟩ := commit_of_accepted hcalm h haccepted
      by_cases htarget : store = target
      · subst htarget
        cases reply with
        | error e => cases haccepted
        | ok _ =>
            rw [Memory.find?_commit_of_forall_ne hcommit]
            · exact hfound
            · exact fun w hmem hid => huntouched ⟨rfl, w, hmem, hid⟩
      · rw [hothers store htarget]
        exact hfound
  | none =>
      rcases memory_of_unaccepted hcalm h haccepted store with
        hsame | ⟨now, limit, _, hpurged⟩ | rfl
      · rw [hsame]
        exact hfound
      · rw [hpurged]
        exact Memory.find?_purge_of_unexpiring hkeyed hfound hexpiry now limit
      · cases reply with
        | ok _ => exact absurd rfl huntouched
        | error e =>
            rcases reacts_store hcalm h with ⟨hreply, _⟩ | ⟨_, _, hsame⟩
            · cases hreply
            · rw [hsame]
              exact hfound

theorem find?_of_enters {batch : Batch} {entry : QueueEntry} {reply : Except StoreError Unit}
    (hcalm : w.Calm) (h : w.Reacts (.store store (.commit batch)) reply next)
    (haccepted : reply = .ok ()) (henters : batch.Enters id entry) :
    ∃ d, (next.memory store).find? id = some d ∧ d.body = Document.encode entry ∧
      d.expiresAt = none := by
  subst haccepted
  obtain ⟨target, htarget, hcommit, _⟩ := commit_of_accepted hcalm h rfl
  cases htarget
  have hrewrites := Memory.rewrites_of_commit hcommit id
  rw [henters] at hrewrites
  obtain ⟨_, _, houtcome⟩ := Memory.rewrites_singleton hrewrites
  exact Memory.outcome_put houtcome

end World

variable {τ ρ : Type}

def Event.Touches (store : StoreRef) (id : DocId) (event : Event τ ρ) : Prop :=
  ∃ n exchange, event.heard? n = some exchange ∧ exchange.Touches store id

namespace Yard

variable {program : τ → Program ρ} {admits : τ → Prop} {y last : Yard τ ρ}
  {history : List (Event τ ρ)}

theorem Run.keyed (hcalm : y.world.Calm) (hkeyed : (y.world.memory store).Keyed)
    (hrun : Run program admits y history last) : (last.world.memory store).Keyed := by
  induction hrun with
  | refl => exact hkeyed
  | step hrun hstep ih => exact hstep.keyed (hrun.calm hcalm) ih

theorem Run.find?_of_untouched (hcalm : y.world.Calm) (hkeyed : (y.world.memory store).Keyed)
    (hrun : Run program admits y history last)
    (huntouched : ∀ event ∈ history, ¬ event.Touches store id)
    (hfound : (y.world.memory store).find? id = some d) (hexpiry : d.expiresAt = none) :
    (last.world.memory store).find? id = some d := by
  induction hrun with
  | refl => exact hfound
  | @step history event middle last hrun hstep ih =>
      have hmiddle := ih fun event hmem => huntouched event (List.mem_cons_of_mem _ hmem)
      rcases hstep.heard_cases with ⟨_, time, hworld⟩ | ⟨n, exchange, hheard, hreacts⟩
      · rw [hworld]
        exact hmiddle
      · refine World.find?_of_untouched (hrun.calm hcalm) (hrun.keyed hcalm hkeyed) hreacts
          (fun htouches => ?_) hmiddle hexpiry
        exact huntouched event List.mem_cons_self ⟨n, exchange, hheard, htouches⟩

end Yard

/-- The turns since a thread last read a generation. -/
def iteration (n : Nat) (history : List (Event τ ρ)) : List (Event τ ρ) :=
  history.takeWhile fun event => !(event.heard? n).any Exchange.readsGeneration

theorem iteration_eq {n : Nat} {recent before : List (Event τ ρ)} {read : Event τ ρ}
    {exchange : Exchange} (hrecent : ∀ exchange ∈ heard n recent, ¬ exchange.readsGeneration)
    (hread : read.heard? n = some exchange) (hreads : exchange.readsGeneration) :
    iteration n (recent ++ read :: before) = recent := by
  unfold iteration
  rw [List.takeWhile_append_of_pos, List.takeWhile_cons_of_neg, List.append_nil]
  · simp [hread, hreads]
  · intro event hmem
    cases hheard : event.heard? n with
    | none => rfl
    | some other => simpa using hrecent other (mem_heard.mpr ⟨event, hmem, hheard⟩)

abbrev PartyYard := Yard Party Ending

namespace PartyYard

open JobQueue

variable {y : PartyYard} {clock : Instant} {n : Nat} {q : JobQueue} {queues : List String}
  {token : TokenRef} {seen : UInt64} {found : List Stored}
  {history later between before : List (Event Party Ending)} {asked read : Event Party Ending}

/-- The last attempt of a consumer that is about to wait. It began after the consumer had read
the generation, and ended with nothing; then the consumer was not cancelled. -/
structure Attempt (n : Nat) (q : JobQueue) (queues : List String) (token : TokenRef)
    (seen : UInt64) (found : List Stored) (later : List (Event Party Ending))
    (asked : Event Party Ending) (between : List (Event Party Ending)) (read : Event Party Ending)
    (before : List (Event Party Ending)) : Prop where
  later : ∃ claims, heard n later = ⟨.isCancelled token, false⟩ :: claims ∧
    ∀ exchange ∈ claims, q.Tries exchange.request
  asked : asked.heard? n = some ⟨.store q.store (.query (pending queues)), .ok found⟩
  between : heard n between = []
  read : read.heard? n = some ⟨.generation q.signal, seen⟩
  watched : ⟨.watch token q.signal, ()⟩ ∈ heard n before

def waiting? : Thread Party Ending → Option (JobQueue × List String × TokenRef × UInt64)
  | ⟨.dequeue q queues token _, _, .call (.wait _ seen _) _⟩ => some (q, queues, token, seen)
  | _ => none

def Waits (y : PartyYard) (n : Nat) (q : JobQueue) (queues : List String) (token : TokenRef)
    (seen : UInt64) : Prop :=
  (y.threads n).bind waiting? = some (q, queues, token, seen)

instance : Decidable (Waits y n q queues token seen) := inferInstanceAs (Decidable (_ = _))

theorem thread_of_waits (h : Waits y n q queues token seen) :
    ∃ limit log signal timeout next, y.threads n =
      some ⟨.dequeue q queues token limit, log, .call (.wait signal seen timeout) next⟩ := by
  obtain ⟨thread, hthread, hwaiting⟩ := Option.bind_eq_some_iff.mp h
  rw [hthread]
  unfold waiting? at hwaiting
  split at hwaiting
  · cases hwaiting
    exact ⟨_, _, _, _, _, rfl⟩
  · cases hwaiting

theorem exists_attempt
    (hrun : Yard.Run Party.program Party.Admitted (Yard.start clock) history y)
    (hwaits : Waits y n q queues token seen) :
    ∃ later asked between read before found,
      history = later ++ asked :: between ++ read :: before ∧
        Attempt n q queues token seen found later asked between read before := by
  obtain ⟨limit, log, signal, timeout, next, hthread⟩ := thread_of_waits hwaits
  obtain ⟨_, _, ⟨_, attempt, found, earlier, hlog, ⟨claims, hattempt, htries⟩, hwatched⟩, _⟩ :=
    hrun.conduct (fun _ => Party.conforms) hthread
  have hheard : heard n history =
      (⟨.isCancelled token, false⟩ :: claims) ++
        ⟨.store q.store (.query (pending queues)), .ok found⟩ ::
          ⟨.generation q.signal, seen⟩ :: earlier := by
    rw [← hrun.logAt_start n, Yard.logAt_of_threads hthread]
    exact hlog.trans (congrArg _ hattempt)
  obtain ⟨later, asked, rest, hhistory, hlater, hasked, hrest⟩ := split_of_heard hheard
  obtain ⟨between, read, before, rfl, hbetween, hread, rfl⟩ :=
    split_of_heard (hrest.trans (List.nil_append _).symm)
  refine ⟨later, asked, between, read, before, found, ?_,
    ⟨⟨claims, hlater, htries⟩, hasked, hbetween, hread, hwatched⟩⟩
  rw [hhistory, List.append_assoc, List.cons_append]

theorem Attempt.iteration_eq
    (h : Attempt n q queues token seen found later asked between read before) :
    iteration n (later ++ asked :: between ++ read :: before) = later ++ asked :: between := by
  refine Simulation.iteration_eq (fun exchange hmem => ?_) h.read rfl
  obtain ⟨claims, hlater, htries⟩ := h.later
  rw [heard_append, heard_cons, h.between, hlater, h.asked] at hmem
  rcases List.mem_append.mp hmem with hlast | hasked
  · rcases List.mem_cons.mp hlast with rfl | hclaim
    · exact Bool.false_ne_true
    · exact not_readsGeneration_of_tries (htries exchange hclaim)
  · rw [List.mem_singleton.mp hasked]
    exact Bool.false_ne_true

/-- If the generation that was read is still the present one, nobody has notified since. -/
theorem Attempt.silent (h : Attempt n q queues token seen found later asked between read before)
    (hrun : Yard.Run Party.program Party.Admitted (Yard.start clock)
      (later ++ asked :: between ++ read :: before) y)
    (hsame : y.world.generation q.signal = seen)
    (hfew : notifications q.signal (iteration n (later ++ asked :: between ++ read :: before)) <
      UInt64.size) :
    ∀ event ∈ later ++ asked :: between ++ [read], ¬ event.notifies q.signal := by
  rw [h.iteration_eq] at hfew
  obtain ⟨middle, hfirst, hrecent⟩ := hrun.split
  cases hfirst with
  | @step _ _ earlier _ hbefore hstep =>
      have hcalm := hbefore.calm (World.calm_start clock)
      obtain ⟨hseen, hworld⟩ := hstep.reacts_of_heard h.read
      have hgeneration : middle.world.generation q.signal = seen := by
        rw [hworld]
        exact hseen.symm
      have hnone := hrecent.notifications_eq_zero (hstep.calm hcalm)
        (hsame.trans hgeneration.symm) hfew
      intro event hmem
      rcases List.mem_append.mp hmem with hrecently | hread
      · exact List.countP_eq_zero.mp hnone event hrecently
      · rw [List.mem_singleton.mp hread, Event.notifies_of_heard h.read]
        exact Bool.false_ne_true

def Commits (k : Nat) (store : StoreRef) (id : DocId) (entry : QueueEntry)
    (event : Event Party Ending) : Prop :=
  ∃ batch : Batch, event.heard? k = some ⟨.store store (.commit batch), .ok ()⟩ ∧
    batch.Enters id entry

theorem exists_commits {k : Nat} {signal : SignalRef} {entry : QueueEntry}
    {recent : List (Event Party Ending)}
    (hrun : Yard.Run Party.program Party.Admitted (Yard.start clock) (recent ++ before) y)
    (hsilent : ∀ event ∈ recent, ¬ event.notifies signal)
    (h : (y.logAt k).Announces store signal id entry) :
    ∃ since committed old, before = since ++ committed :: old ∧
      Commits k store id entry committed := by
  obtain ⟨newer, batch, older, hlog, henters, hnotified⟩ := h.committed
  obtain ⟨front, back, rfl⟩ := List.append_of_mem hnotified
  rw [hrun.logAt_start k, List.append_assoc, List.cons_append] at hlog
  obtain ⟨after, notice, rest, hhistory, _, hnotice, hrest⟩ := split_of_heard hlog
  obtain ⟨since, committed, old, rfl, _, hcommitted, _⟩ := split_of_heard hrest
  have hnotifies : notice.notifies signal := by
    rw [Event.notifies_of_heard hnotice, Exchange.notifies_iff]
  -- The notice is not one of the recent turns, and the commit came before the notice.
  rcases List.append_eq_append_iff.mp hhistory with
    ⟨middle, _, hbefore⟩ | ⟨middle, hrecent, hmiddle⟩
  · refine ⟨middle ++ notice :: since, committed, old, ?_, batch, hcommitted, henters⟩
    rw [hbefore, List.append_assoc, List.cons_append]
  · cases middle with
    | nil => exact ⟨notice :: since, committed, old, hmiddle.symm, batch, hcommitted, henters⟩
    | cons first others =>
        obtain ⟨rfl, _⟩ := List.cons.inj hmiddle
        refine absurd hnotifies (hsilent notice ?_)
        rw [hrecent]
        exact List.mem_append_right _ List.mem_cons_self

theorem offered_of_untouched {k : Nat} {entry : QueueEntry}
    {since old : List (Event Party Ending)} {committed : Event Party Ending}
    (hrun : Yard.Run Party.program Party.Admitted (Yard.start clock)
      (asked :: (since ++ committed :: old)) y)
    (hasked : asked.heard? n = some ⟨.store q.store (.query (pending queues)), .ok found⟩)
    (hcommits : Commits k q.store id entry committed)
    (hcollection : id.collection = Document.collection QueueEntry)
    (hwaits : entry.fetchedAt = none) (hqueue : entry.queue ∈ queues)
    (huntouched : ∀ event ∈ since, ¬ event.Touches q.store id) :
    ∃ d ∈ found, d.id = id ∧ d.body = Document.encode entry := by
  obtain ⟨batch, hcommitted, henters⟩ := hcommits
  cases hrun with
  | @step _ _ middle _ hbefore hask =>
      obtain ⟨entered, hfirst, hsince⟩ := hbefore.split
      cases hfirst with
      | @step _ _ empty _ hold hcommit =>
          have hcalm := hold.calm (World.calm_start clock)
          have hempty : ((Yard.start clock : PartyYard).world.memory q.store).Keyed :=
            Memory.keyed_empty
          have hkeyed := hcommit.keyed hcalm (hold.keyed (World.calm_start clock) hempty)
          obtain ⟨d, hd, hbody, hexpiry⟩ :=
            World.find?_of_enters hcalm (hcommit.reacts_of_heard hcommitted) rfl henters
          have hafter := hcommit.calm hcalm
          have hfound := hsince.find?_of_untouched hafter hkeyed huntouched hd hexpiry
          have hlater := hsince.keyed hafter hkeyed
          obtain rfl : d.id = id := hlater id d hfound
          refine ⟨d, ?_, rfl, hbody⟩
          have haccepts := accepts_pending_of_mem hcollection hbody hwaits hqueue
          rcases World.reacts_store (hsince.calm hafter) (hask.reacts_of_heard hasked) with
            ⟨hreply, _⟩ | ⟨_, herror, _⟩
          · obtain ⟨_, hquery, hoffered⟩ := (middle.world.memory q.store).query_pending queues
            cases hquery.symm.trans hreply.symm
            exact (hoffered d).mpr ((Memory.mem_accepted_iff hlater).mpr ⟨hfound, haccepts⟩)
          · cases herror

/-- A consumer that waits on the present generation has last begun to look after every entry that
was announced to it had been committed. It was offered all of these but for those that somebody
has touched before it asked; and what a party says it has queued was announced. -/
theorem offered_of_waiting
    (hrun : Yard.Run Party.program Party.Admitted (Yard.start clock) history y)
    (hwaits : Waits y n q queues token seen) (hsame : y.world.generation q.signal = seen)
    (hfew : notifications q.signal (iteration n history) < UInt64.size) :
    (∃ later asked between read before found,
      history = later ++ asked :: between ++ read :: before ∧
      Attempt n q queues token seen found later asked between read before ∧
      ∀ k store id entry, (y.logAt k).Announces store q.signal id entry →
        ∃ since committed old, before = since ++ committed :: old ∧
          Commits k store id entry committed ∧
          (store = q.store → entry.fetchedAt = none → entry.queue ∈ queues →
            (∀ event ∈ between ++ read :: since, ¬ event.Touches q.store id) →
            ∃ d ∈ found, d.id = id ∧ d.body = Document.encode entry)) ∧
    ∀ k thread ending store entry, y.threads k = some thread → thread.rest = .done ending →
      thread.task.Queues store q.signal entry ending →
      ∃ id, (y.logAt k).Announces store q.signal id entry := by
  constructor
  · obtain ⟨later, asked, between, read, before, found, rfl, hattempt⟩ := exists_attempt hrun hwaits
    refine ⟨later, asked, between, read, before, found, rfl, hattempt, ?_⟩
    intro k store id entry hannounces
    have hsilent := hattempt.silent hrun hsame hfew
    have hsplit := hrun
    rw [List.append_cons] at hsplit
    obtain ⟨since, committed, old, rfl, hcommits⟩ := exists_commits hsplit hsilent hannounces
    refine ⟨since, committed, old, rfl, hcommits, ?_⟩
    rintro rfl hpending hqueue huntouched
    have hhistory : later ++ asked :: between ++ read :: (since ++ committed :: old) =
        later ++ asked :: (between ++ read :: since ++ committed :: old) := by
      simp only [List.append_assoc, List.cons_append]
    rw [hhistory] at hrun
    obtain ⟨middle, hbegun, _⟩ := hrun.split
    exact offered_of_untouched hbegun hattempt.asked hcommits hannounces.collection hpending hqueue
      huntouched
  · intro k thread ending store entry hthread hdone hqueues
    have hlog := Yard.logAt_of_threads hthread
    obtain ⟨_, _, hends⟩ := hrun.conduct (fun _ => Party.conforms) hthread
    rw [hdone] at hends
    have hnodup := hrun.apart.nodup k
    rw [hlog] at hnodup ⊢
    exact hends.1 hnodup store q.signal entry hqueues

namespace Sample

def queue : JobQueue := ⟨⟨0⟩, ⟨0⟩, ⟨0⟩, ⟨1⟩⟩

/-- An entry is found by two consumers; the second one leases it before the first one loads it. -/
def overtaken : List (Move Party) :=
  Move.whole 0 (.enqueue queue "q" ⟨"j"⟩) 3 ++ Move.whole 1 (.dequeue queue ["q"] ⟨0⟩ 1) 5 ++
    Move.whole 2 (.dequeue queue ["q"] ⟨0⟩ 1) 8 ++ List.replicate 5 (.turn 1)

def hasQueued : Thread Party Ending → Bool
  | ⟨.enqueue q name jobId, _, .done (.enqueued (.ok _))⟩ =>
    q = queue ∧ name = "q" ∧ jobId = ⟨"j"⟩
  | _ => false

end Sample

/-- The consumer that was overtaken waits, although an entry was announced to it; it was committed
before the consumer read the generation. -/
theorem offered_to_overtaken :
    let state := Yard.play Party.program Sample.overtaken ([], Yard.start .origin)
    Waits state.2 1 Sample.queue ["q"] ⟨0⟩ 1 ∧
      ∃ later asked between read before found id committed,
        state.1 = later ++ asked :: between ++ read :: before ∧
        Attempt 1 Sample.queue ["q"] ⟨0⟩ 1 found later asked between read before ∧
        Commits 0 ⟨0⟩ id (QueueEntry.pending "q" ⟨"j"⟩) committed ∧ committed ∈ before := by
  intro state
  have hadmitted : ∀ n task, .begin n task ∈ Sample.overtaken → task.Admitted := by
    intro n task hmem
    simp only [Sample.overtaken, List.mem_append, Move.begin_mem_whole, List.mem_replicate,
      reduceCtorEq, and_false, or_false] at hmem
    rcases hmem with (⟨_, rfl⟩ | ⟨_, rfl⟩) | ⟨_, rfl⟩ <;> trivial
  have hwaits : Waits state.2 1 Sample.queue ["q"] ⟨0⟩ 1 := by decide +kernel
  have hended : (state.2.threads 0).any Sample.hasQueued := by decide +kernel
  obtain ⟨thread, hthread, hqueued⟩ := (Option.any_eq_true _ _).mp hended
  obtain ⟨⟨later, asked, between, read, before, found, hhistory, hattempt, hoffered⟩, hannounced⟩ :=
    offered_of_waiting (Yard.run_play hadmitted .refl) hwaits (by decide +kernel)
      (by decide +kernel)
  unfold Sample.hasQueued at hqueued
  split at hqueued
  · obtain ⟨rfl, rfl, rfl⟩ := of_decide_eq_true hqueued
    obtain ⟨id, hannounces⟩ :=
      hannounced 0 _ _ ⟨0⟩ (QueueEntry.pending "q" ⟨"j"⟩) hthread rfl ⟨rfl, rfl, rfl⟩
    obtain ⟨since, committed, old, hbefore, hcommits, _⟩ := hoffered 0 ⟨0⟩ id _ hannounces
    refine ⟨hwaits, later, asked, between, read, before, found, id, committed, hhistory, hattempt,
      hcommits, ?_⟩
    rw [hbefore]
    exact List.mem_append_right _ List.mem_cons_self
  · cases hqueued

end PartyYard

end Simulation

end Jobyard
