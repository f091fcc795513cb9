import Jobyard.Proofs.Queue.History
import Jobyard.Proofs.Queue.Party
import Jobyard.Proofs.Queue.Pick

/-!
The footprint of a dequeue. Whatever other parties do between its turns, a consumer that returns a
lease has had one batch accepted, which stamped an entry of its queues; a consumer that ends in
any other way, or has not ended, has changed nothing in any store.

An entry that a query found may be stamped much later, by a write under the version that was loaded
in between. It is of the right queue all the same, since no party moves an entry to another queue.
-/

namespace Jobyard

namespace JobQueue

variable {q : JobQueue} {queues : List String} {log : Log} {lease : Lease}

theorem queue_of_accepts {query : Query} {d : Stored} {e : QueueEntry}
    (hquery : query = pending queues ∨ ∃ cutoff, query = stale queues cutoff)
    (hbody : d.body = Document.encode e) (haccepts : query.accepts d = true) :
    e.queue ∈ queues := by
  have hof : (ofQueues queues).accepts d = true := by
    rcases hquery with rfl | ⟨cutoff, rfl⟩
    · exact (Query.accepts_filter.mp haccepts).1
    · exact (Query.accepts_filter.mp haccepts).1
  exact ((accepts_ofQueues_written hbody).mp hof).2

theorem Ends.length_commits {lease : Option Lease} (h : q.Ends log lease) :
    log.commits.length = lease.toList.length := by
  cases lease with
  | none =>
      rw [Log.commits_eq_nil h]
      rfl
  | some lease =>
      obtain ⟨exchange, earlier, _, _, _, _, rfl, hnone, _, haccepted, _⟩ := h
      have hearlier : earlier.commits = [] := Log.commits_eq_nil hnone
      unfold Log.commits at hearlier ⊢
      rw [List.filterMap_cons_some haccepted, hearlier]
      rfl

end JobQueue

namespace Simulation

namespace World

/-- A lease was given: an entry of the queues was stamped that was claimable at the time of the
stamp, and nothing else changed in any store. -/
inductive Leases (w after : World) (q : JobQueue) (queues : List String) : Lease → Prop
  | stamped {d : Stored} {e : QueueEntry} {now : Instant}
      (hoffers : (w.memory q.store).Offers queues d e)
      (hclaimable : e.isClaimable now q.invisibility)
      (hmemory : after.memory q.store = (w.memory q.store).stampEntry d e now)
      (hothers : ∀ other, other ≠ q.store → after.memory other = w.memory other) :
      Leases w after q queues (Lease.ofEntry q.store d.id (JobQueue.stamped e now))

end World

namespace Task

def looks : Task → Log → Request → Prop
  | dequeue q queues .. => fun _ => q.Looks queues
  | _ => fun _ _ => True

theorem conforms_looks (task : Task) : task.program.Conforms task.looks (fun _ _ => True) [] := by
  cases task with
  | dequeue q queues token limit => exact q.looks_dequeue queues token limit
  | _ => exact Program.conforms_true _

theorem at_cancel (store : StoreRef) (token : TokenRef) :
    (other (Token.cancel token)).At store := by
  refine ((Token.cancels_cancel token).weaken fun log request hcancels => ?_).mono
    fun _ _ _ => trivial
  cases request with
  | store target call => cases hcancels
  | _ => trivial

end Task

open History

variable {store : StoreRef} {clock : Instant} {y last : Floor} {history more : History} {n : Nat}

theorem encoded_of_run (hrun : Shift store (Yard.start clock) history y) {id : DocId} {d : Stored}
    (hentry : IsEntry id) (hfound : (y.world.memory store).find? id = some d) :
    ∃ e : QueueEntry, d.body = Document.encode e := by
  induction hrun generalizing d with
  | refl => cases hfound
  | step hrun hstep ih =>
      cases (Floor.effect_of_step (recorded_of_run hrun).sound hstep).fate hentry with
      | kept hsame => exact ih (hsame.symm.trans hfound)
      | created entry other _ hother hbody =>
          rw [hother] at hfound
          cases hfound
          exact ⟨entry, hbody⟩
      | rewritten other entry stamp _ hother =>
          rw [hother] at hfound
          cases hfound
          exact ⟨_, rfl⟩
      | removed other entry _ hgone =>
          rw [hgone] at hfound
          cases hfound

theorem Recorded.queue_eq (h : Recorded store history y)
    (hlast : Recorded store (more ++ history) last) {id : DocId} {d current : Stored}
    {e entry : QueueEntry} (hentry : IsEntry id) (hholds : Holds (y.world.memory store) id d e)
    (hcurrent : Holds (last.world.memory store) id current entry) : entry.queue = e.queue := by
  obtain ⟨created, hcreated, rfl⟩ := h.exists_created hentry hholds
  have hadded : (id, created) ∈ addedIn (more ++ history) := by
    rw [addedIn_append]
    exact List.mem_append_right _ hcreated
  have hnow := hlast.contents id created current hadded hcurrent.1
  rw [hcurrent.2] at hnow
  cases hnow
  rfl

theorem queue_of_found {q : JobQueue} {queues : List String} {id : DocId} {d : Stored}
    {e : QueueEntry} (hrun : Shift store (Yard.start clock) history y)
    (hlooks : (heard n history).Heeds fun _ => q.Looks queues)
    (hfound : JobQueue.Found store (heard n history) id)
    (hholds : Holds (y.world.memory store) id d e) : e.queue ∈ queues := by
  -- When the query was answered the entry was in one of the queues, and entries stay in theirs.
  obtain ⟨exchange, hmem, hfinds⟩ := hfound
  obtain ⟨front, earlier, hheard, hlook⟩ := hlooks.exists_of_mem hmem
  obtain ⟨before, after, ⟨later, event, past, rfl, hbefore, hstep, hafter, hevent⟩, _⟩ :=
    hrun.exists_turn hheard
  have hrecorded := recorded_of_run hbefore
  obtain ⟨query, found, hrequest, _, hid, hthere, haccepts⟩ := World.found_of_finds
    hrecorded.sound.calm hrecorded.sound.keyed (hstep.reacts_of_heard hevent) hfinds
  rw [hrequest] at hlook
  have hentry : IsEntry id := World.collection_of_finds hrecorded.sound.calm
    hrecorded.sound.keyed (hstep.reacts_of_heard hevent) hfinds
  obtain ⟨old, hbody⟩ := encoded_of_run hbefore hentry hthere
  have hold : Holds (before.world.memory store) id found old :=
    ⟨hthere, by rw [hbody, QueueEntry.decode?_encode]⟩
  have hparts : later ++ event :: past = (later ++ [event]) ++ past := by simp
  rw [hparts] at hrun
  rw [hrecorded.queue_eq (recorded_of_run hrun) hentry hold hholds]
  exact JobQueue.queue_of_accepts hlook.2 hbody haccepts

abbrev Turn (store : StoreRef) (clock : Instant) :=
  Yard.Turn Task.program (Task.At store) (Yard.start clock)

section Dequeue

variable {q : JobQueue} {queues : List String} {lease : Lease} {exchange : Exchange}
  {before after : Floor}

theorem quiet_of_asks (hcalm : before.world.Calm) {log : Log} (hasks : q.Asks log exchange.request)
    (hreacts : before.world.Reacts exchange.request exchange.reply after.world)
    (hunaccepted : exchange.accepted? = none) (target : StoreRef) :
    after.world.memory target = before.world.memory target := by
  obtain ⟨request, reply⟩ := exchange
  rcases World.memory_of_unaccepted hcalm hreacts hunaccepted target with
    hsame | ⟨_, _, rfl, _⟩ | rfl
  · exact hsame
  · exact hasks.2.2.elim
  · exact hasks.2.2.elim

theorem leases_of_accepted {id : DocId} {d : Stored} {entry : QueueEntry} {now : Instant}
    (hrun : Shift q.store (Yard.start clock) history before)
    (hlooks : (heard n history).Heeds fun _ => q.Looks queues)
    (hasks : q.Asks (heard n history) exchange.request)
    (hsees : q.Sees (heard n history) id d entry now)
    (hreacts : before.world.Reacts exchange.request exchange.reply after.world)
    (haccepted : exchange.accepted? = some (JobQueue.claimBatch id d entry now)) :
    World.Leases before.world after.world q queues
      (Lease.ofEntry q.store id (JobQueue.stamped entry now)) := by
  have hsound := (recorded_of_run hrun).sound
  have hlog := hrun.logAt_start n
  obtain ⟨target, hrequest, hcommit, hothers⟩ :=
    World.commit_of_accepted hsound.calm hreacts haccepted
  rw [hrequest] at hasks
  obtain ⟨_, rfl, _⟩ := hasks
  have hentry : IsEntry id := hsound.isEntry_of_found (hlog ▸ hsees.found)
  obtain ⟨current, hfound, hetag, _, _⟩ := Memory.commit_put_exact hcommit
  -- The version that was loaded is still there, so the entry is as the consumer saw it.
  have hsame := hsound.current hentry (hlog ▸ hsees.loaded) hfound hetag
  subst hsame
  have hid : d.id = id := hsound.keyed id d hfound
  subst hid
  obtain ⟨written, hbody⟩ := encoded_of_run hrun hentry hfound
  have hdecoded := hsees.decoded
  rw [hbody, QueueEntry.decode?_encode] at hdecoded
  cases hdecoded
  have hqueue := queue_of_found hrun hlooks hsees.found ⟨hfound, hsees.decoded⟩
  refine .stamped ⟨hfound, hentry, hbody, hqueue⟩ hsees.claimable ?_ hothers
  exact Except.ok.inj (hcommit.symm.trans (Memory.commit_claimBatch hfound entry now))

theorem exists_turn_of_lease (hrun : Shift q.store (Yard.start clock) history y)
    (hasks : (heard n history).Heeds q.Asks)
    (hlooks : (heard n history).Heeds fun _ => q.Looks queues)
    (hends : q.Ends (heard n history) (some lease)) :
    ∃ exchange before after, Turn q.store clock history y n exchange before after ∧
      exchange.accepted?.isSome ∧ World.Leases before.world after.world q queues lease := by
  obtain ⟨exchange, earlier, id, d, entry, now, hheard, _, hsees, haccepted, rfl⟩ := hends
  have hparts : heard n history = [] ++ exchange :: earlier := hheard
  obtain ⟨before, after, hturn, hearlier⟩ := hrun.exists_turn hparts
  refine ⟨exchange, before, after, hturn, by rw [haccepted]; rfl, ?_⟩
  obtain ⟨later, event, past, _, hbefore, hstep, _, hevent⟩ := hturn
  have hpast : heard n past = earlier := (hbefore.logAt_start n).symm.trans hearlier
  rw [hheard, ← hpast] at hasks hlooks
  rw [← hpast] at hsees
  exact leases_of_accepted hbefore hlooks.2 hasks.1 hsees (hstep.reacts_of_heard hevent) haccepted

end Dequeue

/-- A dequeue writes nothing but its lease. With a lease it has had one batch accepted, in a turn
that stamped the entry; without one, or before its end, none. All its other turns leave all stores
as they are. -/
theorem dequeue_writes_lease {thread : Thread Task Outcome} {q : JobQueue} {queues : List String}
    {token : TokenRef} {limit : Nat} (hrun : Shift q.store (Yard.start clock) history y)
    (hthread : y.threads n = some thread) (htask : thread.task = .dequeue q queues token limit) :
    (∀ lease, thread.rest = .done (.ok (some lease)) → thread.log.commits.length = 1 ∧
      ∃ exchange before after, Turn q.store clock history y n exchange before after ∧
        exchange.accepted?.isSome ∧ World.Leases before.world after.world q queues lease) ∧
    ((∀ lease, thread.rest ≠ .done (.ok (some lease))) → thread.log.commits = []) ∧
    ∀ exchange before after, Turn q.store clock history y n exchange before after →
      exchange.accepted? = none →
        ∀ target, after.world.memory target = before.world.memory target := by
  have hlog : thread.log = heard n history :=
    (Yard.logAt_of_threads hthread).symm.trans (hrun.logAt_start n)
  obtain ⟨_, hasks, hrest⟩ := hrun.conduct (fun _ hat => Task.conforms hat) hthread
  obtain ⟨_, hlooks, _⟩ := hrun.conduct (fun task _ => task.conforms_looks) hthread
  rw [htask, hlog] at hasks hrest hlooks
  refine ⟨fun lease hdone => ?_, fun hopen => ?_, ?_⟩
  · rw [hdone] at hrest
    have hends : q.Ends (heard n history) (some lease) := hrest
    rw [hlog]
    exact ⟨hends.length_commits, exists_turn_of_lease hrun hasks hlooks hends⟩
  · rw [hlog]
    refine Log.commits_eq_nil ?_
    cases hcase : thread.rest with
    | call request next =>
        rw [hcase] at hrest
        exact hrest.1.1
    | done outcome =>
        rw [hcase] at hrest hopen
        match outcome with
        | .error e => exact hrest
        | .ok none => exact hrest
        | .ok (some lease) => exact absurd rfl (hopen lease)
  · intro exchange before after hturn hunaccepted target
    obtain ⟨_, _, _, hasked⟩ := hasks.exists_of_mem hturn.mem_heard
    obtain ⟨later, event, earlier, _, hbefore, hstep, _, hevent⟩ := hturn
    exact quiet_of_asks (recorded_of_run hbefore).sound.calm hasked (hstep.reacts_of_heard hevent)
      hunaccepted target

namespace Sample

/-- Two consumers find the same entry. One of them stamps it; the other one loses, finds nothing
else and is cancelled. -/
def race : List (Move Task) :=
  produce 0 ++ consume 1 7 ++ consume 2 7 ++ [.turn 1, .turn 2, .turn 2, .turn 2] ++
    Move.whole 3 (.other (Token.cancel ⟨0⟩)) 2 ++ [.turn 2]

def hasLeased : Thread Task Outcome → Bool
  | ⟨.dequeue q _ _ _, _, .done (.ok (some lease))⟩ => q = queue ∧ lease = leaseAt .origin
  | _ => false

def wasCancelled : Thread Task Outcome → Bool
  | ⟨.dequeue q _ _ _, _, .done (.error e)⟩ => q = queue ∧ e = .cancelled
  | _ => false

end Sample

theorem dequeue_writes_lease_raced :
    let y := (played Sample.race).2
    (∃ winner, y.threads 1 = some winner ∧
      winner.rest = .done (.ok (some (Sample.leaseAt .origin))) ∧ winner.log.commits.length = 1) ∧
    ∃ loser, y.threads 2 = some loser ∧ loser.rest = .done (.error .cancelled) ∧
      loser.log.commits = [] := by
  intro y
  have hadmits : ∀ n task, .begin n task ∈ Sample.race → task.At Sample.queue.store := by
    intro n task hmem
    simp only [Sample.race, Sample.produce, Sample.consume, List.mem_append, List.mem_cons,
      Move.begin_mem_whole, reduceCtorEq, or_false, List.not_mem_nil] at hmem
    rcases hmem with ((⟨_, rfl⟩ | ⟨_, rfl⟩) | ⟨_, rfl⟩) | ⟨_, rfl⟩
    · rfl
    · rfl
    · rfl
    · exact Task.at_cancel _ _
  have hrun : Shift Sample.queue.store (Yard.start .origin) (played Sample.race).1 y :=
    run_played hadmits
  have hleased : (y.threads 1).any Sample.hasLeased := by decide +kernel
  have hcancelled : (y.threads 2).any Sample.wasCancelled := by decide +kernel
  constructor
  · cases hwinner : y.threads 1 with
    | none =>
        rw [hwinner] at hleased
        cases hleased
    | some winner =>
        rw [hwinner, Option.any_some] at hleased
        unfold Sample.hasLeased at hleased
        split at hleased
        · obtain ⟨rfl, rfl⟩ := of_decide_eq_true hleased
          obtain ⟨hlease, _⟩ := dequeue_writes_lease hrun hwinner rfl
          exact ⟨_, rfl, rfl, (hlease _ rfl).1⟩
        · cases hleased
  · cases hloser : y.threads 2 with
    | none =>
        rw [hloser] at hcancelled
        cases hcancelled
    | some loser =>
        rw [hloser, Option.any_some] at hcancelled
        unfold Sample.wasCancelled at hcancelled
        split at hcancelled
        · obtain ⟨rfl, rfl⟩ := of_decide_eq_true hcancelled
          obtain ⟨_, hnone, _⟩ := dequeue_writes_lease hrun hloser rfl
          exact ⟨_, rfl, rfl, hnone fun _ heq => nomatch heq⟩
        · cases hcancelled

end Simulation

end Jobyard
