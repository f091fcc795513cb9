import Jobyard.Proofs.Queue.Drain
import Jobyard.Proofs.Transaction.Conflict
import Jobyard.Storage

/-!
Where a job that a transaction queues is found again. The entry is written to the store of the
transaction, whichever queue serves its name; a consumer looks for it in the store of that queue.
-/

namespace Jobyard

/-- One round of the worker of a queue: it fetches a job and acknowledges the lease. -/
def Connection.work (c : Connection) (queue : String) (token : TokenRef) (limit : Nat) :
    Program (Option Lease) := do
  match ← c.fetchNextJob [queue] token limit with
  | .ok (some lease) =>
    discard lease.acknowledge.outcome
    pure (some lease)
  | _ => pure none

theorem Connection.fetchNextJob_singleton (c : Connection) (queue : String) (token : TokenRef)
    (limit : Nat) :
    c.fetchNextJob [queue] token limit = (c.routing.serving queue).dequeue [queue] token limit := by
  simp [fetchNextJob, Routing.same]

namespace Simulation.World

open JobQueue
open Memory (mem_accepted_iff)

variable {w middle last : World} {t final : Transaction}
  {done plan : List (Instant × Operation)} {id : DocId} {body : Json}

structure Carries (w : World) (t : Transaction) (id : DocId) (body : Json) : Prop where
  collection : id.collection = Document.collection QueueEntry
  issued : id.key ∈ w.issued
  tracked : t.session.find? id = some (Tracked.unasked.hold body)

theorem carries_attempt {store : StoreRef} {m : Memory} {time : Instant} {op : Operation}
    (h : w.Undisturbed store m done t) (hcarries : w.Carries t id body)
    (hattempt : w.attempt t time op = some (last, final)) : last.Carries final id body := by
  obtain ⟨hcollection, hissued, htracked⟩ := hcarries
  obtain ⟨hfresh, hrun⟩ := attempt_eq_some hattempt
  have hcalm : World.Calm { w with clock := time } := ⟨h.calm.hooks, h.calm.deadline⟩
  cases op with
  | edit e =>
      change World.run _ (e.step.start t) = _ at hrun
      rw [run_edit hcalm] at hrun
      obtain ⟨hresult, hlast⟩ := Prod.mk.inj hrun
      obtain ⟨_, hfinal⟩ := Prod.mk.inj hresult
      rw [← hlast, ← hfinal]
      have hne : id ≠ e.id := fun hsame => e.collection_ne (hsame ▸ hcollection)
      exact ⟨hcollection, hissued, (e.find?_act _ _ _ hne).trans htracked⟩
  | addToQueue queue jobId =>
      change World.run _ (Step.start (Step.addToQueue queue jobId) t) = _ at hrun
      rw [Step.start_addToQueue] at hrun
      obtain ⟨hresult, hlast⟩ := Prod.mk.inj hrun
      obtain ⟨_, hfinal⟩ := Prod.mk.inj hresult
      rw [← hlast, ← hfinal]
      refine ⟨hcollection, List.mem_cons_of_mem _ hissued, ?_⟩
      have hnew : ¬ id = w.nextEntry := by
        rintro rfl
        exact (fresh_of_isFreshFor hfresh).1 hissued
      change Session.find? (Session.put _ w.nextEntry _) id = _
      rw [Session.put_eq_track, Session.find?_track, if_neg hnew]
      exact htracked

theorem carries_assemble {store : StoreRef} {m : Memory} (h : w.Undisturbed store m done t)
    (hcarries : w.Carries t id body) (hassemble : w.assemble t plan = some (last, final)) :
    last.Carries final id body := by
  induction plan generalizing w t done with
  | nil =>
      cases hassemble
      exact hcarries
  | cons entry rest ih =>
      obtain ⟨time, op⟩ := entry
      obtain ⟨⟨middle, next⟩, hattempt, hrest⟩ := Option.bind_eq_some_iff.mp hassemble
      exact ih (undisturbed_attempt h hattempt) (carries_attempt h hcarries hattempt) hrest

theorem carries_of_added {store : StoreRef} {m : Memory} {time : Instant} {queue : String}
    {jobId : JobId} (h : w.Undisturbed store m done t)
    (hattempt : w.attempt t time (.addToQueue queue jobId) = some (last, final)) :
    last.Carries final w.nextEntry (Document.encode (QueueEntry.pending queue jobId)) := by
  obtain ⟨hfresh, hrun⟩ := attempt_eq_some hattempt
  change World.run _ (Step.start (Step.addToQueue queue jobId) t) = _ at hrun
  rw [Step.start_addToQueue] at hrun
  obtain ⟨hresult, hlast⟩ := Prod.mk.inj hrun
  obtain ⟨_, hfinal⟩ := Prod.mk.inj hresult
  rw [← hlast, ← hfinal]
  refine ⟨rfl, List.mem_cons_self, ?_⟩
  have hunseen : t.session.find? w.nextEntry = none := by
    cases hfound : t.session.find? w.nextEntry with
    | none => rfl
    | some u => exact absurd (h.issued w.nextEntry u rfl hfound) (fresh_of_isFreshFor hfresh).1
  change Session.find? (Session.put _ w.nextEntry _) w.nextEntry = _
  rw [Session.put_eq_track, hunseen, Session.find?_track_self]
  rfl

theorem stored_of_commit {m next : Memory} {s : Session} (h : Assembled m done s)
    (htracked : s.find? id = some (Tracked.unasked.hold body))
    (hcollection : id.collection = Document.collection QueueEntry)
    (hcommit : m.commit s.batch = .ok next) : ∃ d, next.find? id = some d ∧ d.body = body := by
  have hrewrites := Session.rewrites_of_commit h.distinct hcommit id
  have hdeferred : (s.deferred.filter fun w => w.id = id) = [] := by
    rw [List.filter_eq_nil_iff]
    intro w hmem hid
    obtain ⟨e, _, _, _, rfl⟩ := h.deferred w hmem
    have hsame : e.id = id := of_decide_eq_true hid
    exact e.collection_ne (hsame ▸ hcollection)
  rw [hdeferred, htracked, h.optimistic] at hrewrites
  change Memory.Rewrites [.put id body none .absent] _ _ at hrewrites
  obtain ⟨_, _, houtcome⟩ := Memory.rewrites_singleton hrewrites
  obtain ⟨d, hfound, hbody, _⟩ := Memory.outcome_put houtcome
  exact ⟨d, hfound, hbody⟩

/-- A transaction of a storage that queued a job, under a given entry, and was committed; anything
else may have been done in it before and after. -/
structure Queued (s : Storage) (queue : String) (jobId : JobId) (id : DocId) (w last : World) :
    Prop where
  calm : w.Calm
  keyed : (w.memory s.store).Keyed
  committed : ∃ before later middle added assembled t next final committed time,
    w.assemble s.transaction before = some (middle, t) ∧ id = middle.nextEntry ∧
      middle.attempt t time (.addToQueue queue jobId) = some (added, next) ∧
      added.assemble next later = some (assembled, final) ∧
      assembled.run (Step.commit.start final) = ((.ok (), committed), last)

theorem commit_of_run (hcalm : w.Calm) {t committed : Transaction}
    (hrun : w.run (Step.commit.start t) = ((.ok (), committed), last)) :
    ∃ next, (w.memory t.session.store).commit t.session.batch = .ok next ∧
      Follows w last t.session.store next := by
  cases hcommit : (w.memory t.session.store).commit t.session.batch with
  | ok next =>
      obtain ⟨_, after, hsame, hfollows⟩ := run_commit hcalm hcommit
      rw [hrun] at hsame
      cases hsame
      exact ⟨next, rfl, hfollows⟩
  | error e =>
      obtain ⟨_, _, hfailed, _⟩ := run_commit_error hcalm hcommit
      rw [hrun] at hfailed
      cases hfailed

variable {s : Storage} {queue : String} {jobId : JobId}

theorem Queued.stored (h : Queued s queue jobId id w last) :
    last.Calm ∧ (last.memory s.store).Keyed ∧
      id.collection = Document.collection QueueEntry ∧
        ∃ d, (last.memory s.store).find? id = some d ∧
          d.body = Document.encode (QueueEntry.pending queue jobId) := by
  obtain ⟨hcalm, hkeyed, before, later, middle, added, assembled, t, next, final, committed, time,
    hbefore, rfl, hattempt, hlater, hrun⟩ := h
  have hstart := undisturbed_start hcalm s.store s.routing
  have hmiddle := undisturbed_assemble hstart hbefore
  have hadded := undisturbed_attempt hmiddle hattempt
  have hassembled := undisturbed_assemble hadded hlater
  have hcarries := carries_assemble hadded (carries_of_added hmiddle hattempt) hlater
  obtain ⟨m, hcommit, hfollows⟩ := commit_of_run hassembled.calm hrun
  rw [hassembled.store, hassembled.memory] at hcommit
  rw [hassembled.store] at hfollows
  refine ⟨hfollows.calm hassembled.calm, ?_, rfl, ?_⟩
  · rw [hfollows.memory]
    exact hkeyed.commit hcommit
  · rw [hfollows.memory]
    exact stored_of_commit hassembled.session hcarries.tracked rfl hcommit

structure Open (w : World) (store : StoreRef) (token : TokenRef) : Prop where
  calm : w.Calm
  keyed : (w.memory store).Keyed
  live : (w.token token).cancelled = false

variable {c : Connection} {token : TokenRef} (more : Nat)

theorem Proceeds.isOpen {store : StoreRef} {m : Memory} (h : Proceeds w last store m)
    (hopen : w.Open store token) (hkeyed : m.Keyed) : last.Open store token :=
  ⟨h.calm hopen.calm, h.memory.symm ▸ hkeyed, (h.tokens token).trans hopen.live⟩

theorem run_work_waiting (hopen : w.Open (c.routing.serving queue).store token)
    (hreadable : Readable (w.memory (c.routing.serving queue).store) queue)
    (hwaiting : ∃ d, d ∈ (w.memory (c.routing.serving queue).store).accepted (pending [queue])) :
    ∃ (d : Stored) (entry : QueueEntry) (lease : Lease) (after : World) (m : Memory),
      d ∈ (w.memory (c.routing.serving queue).store).accepted (pending [queue]) ∧
      (w.memory (c.routing.serving queue).store).find? d.id = some d ∧
      Document.decode? d.body = some entry ∧
      w.run (c.work queue token (more + 1)) = (some lease, after) ∧
      lease.store = (c.routing.serving queue).store ∧ lease.entryId = d.id ∧
      lease.jobId = entry.jobId ∧
      Proceeds w after (c.routing.serving queue).store m ∧ m.find? d.id = none ∧
      ∀ other, other ≠ d.id →
        m.find? other = (w.memory (c.routing.serving queue).store).find? other := by
  generalize hserving : c.routing.serving queue = q at *
  have hwatch := proceeds_watch w token q.signal q.store
  have hsame := hwatch.memory
  obtain ⟨d, entry, middle, m, haccepted, hfound, hdecode, htry, hclaim, hstamped, hothers⟩ :=
    run_tryClaim_waiting (w := w.watch token q.signal) (q := q) (hwatch.calm hopen.calm)
      (hsame.symm ▸ hopen.keyed) (hsame.symm ▸ hreadable) (hsame.symm ▸ hwaiting)
  have hdequeue := run_dequeue more hopen.live htry (by simp)
  rw [hsame] at haccepted hfound hothers
  let lease := Lease.ofEntry q.store d.id (stamped entry (w.watch token q.signal).clock)
  obtain ⟨after, last, hacknowledge, hremoval, hgone, hrest⟩ :=
    run_acknowledge_owned (l := lease) (hclaim.calm (hwatch.calm hopen.calm))
      (hclaim.memory.symm ▸ hstamped) (QueueEntry.decode?_encode _) rfl
  have hmiddle : middle.memory lease.store = m := hclaim.memory
  rw [hmiddle] at hrest
  refine ⟨d, entry, lease, after, last, haccepted, hfound, hdecode, ?_, rfl, rfl, rfl,
    (hwatch.trans hclaim).trans hremoval, hgone, fun other hne => ?_⟩
  · have hresolved : middle.run (discard lease.acknowledge.outcome) = ((), after) := by
      change middle.run (lease.acknowledge.run >>= fun _ => pure ()) = _
      rw [run_bind, hacknowledge]
      rfl
    unfold Connection.work
    rw [Connection.fetchNextJob_singleton, hserving, run_bind, hdequeue]
    change middle.run (discard lease.acknowledge.outcome >>= fun _ => pure (some lease)) = _
    rw [run_bind, hresolved]
    rfl
  · exact (hrest other hne).trans (hothers other hne)

theorem run_work_unreadable (hopen : w.Open (c.routing.serving queue).store token)
    (hunreadable : ¬ Readable (w.memory (c.routing.serving queue).store) queue) :
    ∃ after, w.run (c.work queue token (more + 1)) = (none, after) ∧
      Proceeds w after (c.routing.serving queue).store
        (w.memory (c.routing.serving queue).store) := by
  generalize hserving : c.routing.serving queue = q at *
  have hwatch := proceeds_watch w token q.signal q.store
  obtain ⟨e, htry⟩ := run_tryClaim_unreadable (w := w.watch token q.signal) (q := q)
    (hwatch.calm hopen.calm) (hwatch.memory.symm ▸ hopen.keyed) (hwatch.memory.symm ▸ hunreadable)
  have hdequeue := run_dequeue more hopen.live htry (by simp)
  refine ⟨w.watch token q.signal, ?_, hwatch⟩
  unfold Connection.work
  rw [Connection.fetchNextJob_singleton, hserving, run_bind, hdequeue]
  rfl

theorem run_work_empty (hopen : w.Open (c.routing.serving queue).store token)
    (hempty : (w.memory (c.routing.serving queue).store).documents = ∅) (limit : Nat) :
    ∃ after, w.run (c.work queue token limit) = (none, after) ∧
      Proceeds w after (c.routing.serving queue).store
        (w.memory (c.routing.serving queue).store) := by
  generalize hserving : c.routing.serving queue = q at *
  have hwatch := proceeds_watch w token q.signal q.store
  have htry := run_tryClaim_empty (w := w.watch token q.signal) (q := q) (hwatch.calm hopen.calm)
    (hwatch.memory.symm ▸ hempty) queue
  refine ⟨w.watch token q.signal, ?_, hwatch⟩
  unfold Connection.work
  rw [Connection.fetchNextJob_singleton, hserving, run_bind, run_dequeue_live hopen.live,
    run_passes_idle ((hwatch.tokens token).trans hopen.live) htry]
  rfl

theorem store_of_work {limit : Nat} {lease : Lease}
    (h : (w.run (c.work queue token limit)).1 = some lease) :
    lease.store = (c.routing.serving queue).store := by
  have hdequeue := conforms_dequeue (c.routing.serving queue) [queue] token limit
  obtain ⟨log, hends⟩ : ∃ log, (c.routing.serving queue).Ends log
      (leaseOf (w.run ((c.routing.serving queue).dequeue [queue] token limit)).1) :=
    hdequeue.ends_run answer w
  unfold Connection.work at h
  rw [Connection.fetchNextJob_singleton, run_bind] at h
  match hresult : (w.run ((c.routing.serving queue).dequeue [queue] token limit)).1 with
  | .ok (some other) =>
      rw [hresult] at h hends
      rw [run_bind] at h
      cases h
      obtain ⟨_, _, _, _, _, _, _, _, _, _, rfl⟩ := hends
      rfl
  | .ok none =>
      rw [hresult] at h
      cases h
  | .error e =>
      rw [hresult] at h
      cases h

def leased (c : Connection) (queue : String) (token : TokenRef) (limit : Nat) :
    (Nat → Instant) → Nat → World → Option Lease
  | times, 0, w => (World.run { w with clock := times 0 } (c.work queue token limit)).1
  | times, n + 1, w =>
    leased c queue token limit (fun n => times (n + 1)) n
      (World.run { w with clock := times 0 } (c.work queue token limit)).2

theorem Open.clock {store : StoreRef} (h : w.Open store token) (time : Instant) :
    World.Open { w with clock := time } store token :=
  ⟨⟨h.calm.hooks, h.calm.deadline⟩, h.keyed, h.live⟩

theorem store_of_leased {limit n : Nat} {times : Nat → Instant} {lease : Lease}
    (h : leased c queue token limit times n w = some lease) :
    lease.store = (c.routing.serving queue).store := by
  induction n generalizing times w with
  | zero => exact store_of_work h
  | succ n ih => exact ih h

theorem leased_eq_none {limit n : Nat} {times : Nat → Instant} {m : Memory}
    (hidle : ∀ w : World, w.Open (c.routing.serving queue).store token →
      w.memory (c.routing.serving queue).store = m →
      ∃ after, w.run (c.work queue token limit) = (none, after) ∧
        Proceeds w after (c.routing.serving queue).store m)
    (hopen : w.Open (c.routing.serving queue).store token)
    (hmemory : w.memory (c.routing.serving queue).store = m) :
    leased c queue token limit times n w = none := by
  obtain ⟨after, hrun, hproceeds⟩ := hidle _ (hopen.clock (times 0)) hmemory
  induction n generalizing times w after with
  | zero =>
      unfold leased
      rw [hrun]
  | succ n ih =>
      have hnext := hproceeds.isOpen (hopen.clock _) (hmemory ▸ hopen.keyed)
      obtain ⟨last, hlast, hfurther⟩ := hidle _ (hnext.clock (times 1)) hproceeds.memory
      unfold leased
      rw [hrun]
      exact ih hnext hproceeds.memory last hlast hfurther

theorem leased_unreadable {n : Nat} {times : Nat → Instant}
    (hopen : w.Open (c.routing.serving queue).store token)
    (hunreadable : ¬ Readable (w.memory (c.routing.serving queue).store) queue) :
    leased c queue token (more + 1) times n w = none := by
  refine leased_eq_none (fun w hopen hmemory => ?_) hopen rfl
  rw [← hmemory] at hunreadable ⊢
  exact run_work_unreadable more hopen hunreadable

theorem leased_empty {limit n : Nat} {times : Nat → Instant}
    (hopen : w.Open (c.routing.serving queue).store token)
    (hempty : (w.memory (c.routing.serving queue).store).documents = ∅) :
    leased c queue token limit times n w = none := by
  refine leased_eq_none (fun w hopen hmemory => ?_) hopen rfl
  rw [← hmemory] at hempty ⊢
  exact run_work_empty hopen hempty limit

theorem accepted_of_gone {m next : Memory} {id : DocId} (hkeyed : m.Keyed)
    (hgone : next.find? id = none)
    (hothers : ∀ other, other ≠ id → next.find? other = m.find? other) :
    next.Keyed ∧ ∀ query d, d ∈ next.accepted query ↔ d ∈ m.accepted query ∧ d.id ≠ id := by
  have hne : ∀ other d, next.find? other = some d → other ≠ id := by
    rintro other d hfound rfl
    rw [hgone] at hfound
    cases hfound
  have hnext : next.Keyed := fun other d hfound =>
    hkeyed other d ((hothers other (hne other d hfound)).symm.trans hfound)
  refine ⟨hnext, fun query d => ?_⟩
  rw [mem_accepted_iff hnext, mem_accepted_iff hkeyed]
  constructor
  · rintro ⟨hfound, haccepts⟩
    exact ⟨⟨(hothers d.id (hne d.id d hfound)).symm.trans hfound, haccepts⟩, hne d.id d hfound⟩
  · rintro ⟨⟨hfound, haccepts⟩, hother⟩
    exact ⟨(hothers d.id hother).trans hfound, haccepts⟩

/-- An entry that waits is leased in some round. The rounds before take the other waiting entries
away, one by one. -/
theorem exists_leased (times : Nat → Instant) {d : Stored} (bound : Nat) (waiting : List DocId)
    (hbound : waiting.length ≤ bound) (hopen : w.Open (c.routing.serving queue).store token)
    (hreadable : Readable (w.memory (c.routing.serving queue).store) queue)
    (hcovers : ∀ d, d ∈ (w.memory (c.routing.serving queue).store).accepted (pending [queue]) →
      d.id ∈ waiting)
    (haccepted : d ∈ (w.memory (c.routing.serving queue).store).accepted (pending [queue]))
    {entry : QueueEntry} (hdecode : Document.decode? d.body = some entry) :
    ∃ n lease, leased c queue token (more + 1) times n w = some lease ∧
      lease.store = (c.routing.serving queue).store ∧ lease.entryId = d.id ∧
      lease.jobId = entry.jobId := by
  induction bound generalizing w times waiting with
  | zero =>
      rw [List.eq_nil_of_length_eq_zero (Nat.le_zero.mp hbound)] at hcovers
      exact nomatch hcovers d haccepted
  | succ bound ih =>
      obtain ⟨first, content, lease, after, m, hfirst, hfound, hcontent, hrun, hstore, hid, hjob,
        hproceeds, hgone, hothers⟩ := run_work_waiting more (hopen.clock (times 0))
          hreadable ⟨d, haccepted⟩
      by_cases hsame : first.id = d.id
      · have hd := (mem_accepted_iff hopen.keyed).mp haccepted
        rw [hsame] at hfound
        have heq : first = d := Option.some.inj (hfound.symm.trans hd.1)
        subst heq
        rw [hdecode] at hcontent
        cases hcontent
        refine ⟨0, lease, ?_, hstore, hid, hjob⟩
        unfold leased
        rw [hrun]
      · obtain ⟨hkeyed, hleft⟩ := accepted_of_gone hopen.keyed hgone hothers
        have hshorter : (waiting.erase first.id).length ≤ bound := by
          have hmem := hcovers first hfirst
          rw [List.length_erase_of_mem hmem]
          omega
        have hcovered : ∀ other, other ∈ m.accepted (pending [queue]) →
            other.id ∈ waiting.erase first.id := by
          intro other hother
          obtain ⟨hearlier, hne⟩ := (hleft _ other).mp hother
          exact (List.mem_erase_of_ne hne).mpr (hcovers other hearlier)
        have hrest := ih (w := after) (fun n => times (n + 1)) (waiting.erase first.id)
          hshorter (hproceeds.isOpen (hopen.clock _) hkeyed)
        rw [hproceeds.memory] at hrest
        obtain ⟨n, found, hleased, hfound⟩ :=
          hrest (fun other hother => hreadable other ((hleft _ other).mp hother).1) hcovered
            ((hleft _ d).mpr ⟨haccepted, Ne.symm hsame⟩)
        refine ⟨n + 1, found, ?_, hfound⟩
        unfold leased
        rwa [hrun]

/-- A committed job is delivered by rounds of fetching and acknowledging, at any readings of the
clock, exactly if the queue that serves its name keeps its entries in the store of the transaction
and no unreadable entry waits there under the name. -/
theorem delivered_iff {times : Nat → Instant} (hqueued : Queued s queue jobId id w last)
    (hlive : (last.token token).cancelled = false) :
    (∃ n lease, leased s.connection queue token (more + 1) times n last = some lease ∧
      lease.store = s.store ∧ lease.entryId = id ∧ lease.jobId = jobId) ↔
      (s.routing.serving queue).store = s.store ∧ Readable (last.memory s.store) queue := by
  obtain ⟨hcalm, hkeyed, hcollection, d, hfound, hbody⟩ := hqueued.stored
  constructor
  · rintro ⟨n, lease, hleased, hstore, _⟩
    have hserving : (s.routing.serving queue).store = s.store :=
      (store_of_leased hleased).symm.trans hstore
    refine ⟨hserving, Classical.byContradiction fun hunreadable => ?_⟩
    have hopen : last.Open (s.connection.routing.serving queue).store token := by
      refine ⟨hcalm, ?_, hlive⟩
      rw [show s.connection.routing = s.routing from rfl, hserving]
      exact hkeyed
    rw [← hserving] at hunreadable
    rw [leased_unreadable more hopen hunreadable] at hleased
    cases hleased
  · rintro ⟨hserving, hreadable⟩
    have hid : d.id = id := hkeyed id d hfound
    have haccepted : d ∈ (last.memory s.store).accepted (pending [queue]) := by
      refine (mem_accepted_iff hkeyed).mpr ⟨hid ▸ hfound, ?_⟩
      exact accepts_pending_encode queue jobId (hid ▸ hcollection) hbody
    have hdecode : Document.decode? d.body = some (QueueEntry.pending queue jobId) := by
      rw [hbody]
      exact QueueEntry.decode?_encode _
    rw [← hserving] at hkeyed hreadable haccepted
    obtain ⟨n, lease, hleased, hstore, hentry, hjob⟩ :=
      exists_leased (c := s.connection) more times _ _ (Nat.le_refl _)
        ⟨hcalm, hkeyed, hlive⟩ hreadable (fun other hother => List.mem_map_of_mem hother) haccepted
        hdecode
    exact ⟨n, lease, hleased, hstore.trans hserving, hentry.trans hid, hjob⟩

namespace Sample

def storage : Storage := ⟨⟨0⟩, .standard, .single (.ofOptions ⟨0⟩ ⟨0⟩ .standard)⟩

def divided : Storage := storage.withQueue (.ofOptions ⟨1⟩ ⟨1⟩ .standard) ["q"]

def queueing (s : Storage) : Option (World × Transaction) :=
  (World.start .origin).attempt s.transaction .origin (.addToQueue "q" ⟨"j"⟩)

def queued (s : Storage) : World :=
  match queueing s with
  | some (w, t) => (w.run (Step.commit.start t)).2
  | none => World.start .origin

theorem queued_of_commit {s : Storage}
    (h : (queueing s).any fun (w, t) => (w.run (Step.commit.start t)).1.1.isOk) :
    Queued s "q" ⟨"j"⟩ (World.start .origin).nextEntry (World.start .origin) (queued s) := by
  obtain ⟨⟨added, next⟩, hattempt, hcommit⟩ := (Option.any_eq_true _ _).mp h
  refine ⟨⟨rfl, rfl⟩, Memory.keyed_empty, [], [], .start .origin, added, added, s.transaction, next,
    next, ?_⟩
  cases hrun : added.run (Step.commit.start next) with
  | mk result last =>
      obtain ⟨ended, committed⟩ := result
      simp only [hrun] at hcommit
      cases ended with
      | error e => cases hcommit
      | ok value =>
          refine ⟨committed, .origin, rfl, rfl, hattempt, rfl, ?_⟩
          unfold queued
          rw [hattempt]
          simp only [hrun]

end Sample

theorem delivered_to_shared_store :
    ∃ id n lease, Queued Sample.storage "q" ⟨"j"⟩ id (World.start .origin)
        (Sample.queued Sample.storage) ∧
      leased Sample.storage.connection "q" ⟨0⟩ 1 (fun _ => .origin) n
        (Sample.queued Sample.storage) = some lease ∧
      lease.store = Sample.storage.store ∧ lease.entryId = id ∧ lease.jobId = ⟨"j"⟩ := by
  have hqueued := Sample.queued_of_commit (s := Sample.storage) (by decide +kernel)
  have hlive : ((Sample.queued Sample.storage).token ⟨0⟩).cancelled = false := by decide +kernel
  have hreadable : Readable ((Sample.queued Sample.storage).memory Sample.storage.store) "q" := by
    decide +kernel
  obtain ⟨n, lease, hleased⟩ := (delivered_iff 0 hqueued hlive).mpr ⟨rfl, hreadable⟩
  exact ⟨_, n, lease, hqueued, hleased⟩

theorem undelivered_to_own_store :
    ¬ ∀ (s : Storage) (queue : String) (jobId : JobId) (id : DocId) (w last : World)
        (token : TokenRef) (more : Nat) (times : Nat → Instant),
      Queued s queue jobId id w last → (last.token token).cancelled = false →
        ∃ n lease, leased s.connection queue token (more + 1) times n last = some lease ∧
          lease.jobId = jobId := by
  intro hall
  have hqueued := Sample.queued_of_commit (s := Sample.divided) (by decide +kernel)
  have hlive : ((Sample.queued Sample.divided).token ⟨0⟩).cancelled = false := by decide +kernel
  have hserving : (Sample.divided.connection.routing.serving "q").store = ⟨1⟩ := by decide +kernel
  have habsent : ((Sample.queued Sample.divided).stores.find? 1).isNone := by decide +kernel
  have hempty : (Sample.queued Sample.divided).memory ⟨1⟩ = .empty := by
    unfold memory
    rw [Option.isNone_iff_eq_none.mp habsent]
    rfl
  obtain ⟨n, lease, hleased, _⟩ := hall _ _ _ _ _ _ ⟨0⟩ 0 (fun _ => .origin) hqueued hlive
  rw [leased_empty ⟨hqueued.stored.1, by rw [hserving, hempty]; exact Memory.keyed_empty, hlive⟩
    (by rw [hserving, hempty]; rfl)] at hleased
  cases hleased

end Simulation.World

end Jobyard
