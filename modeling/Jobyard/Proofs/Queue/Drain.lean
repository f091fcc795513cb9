import Jobyard.Connection.Basic
import Jobyard.Proofs.Queue.Claim
import Jobyard.Proofs.Queue.Search
import Jobyard.Proofs.Session.Mirror
import Jobyard.Proofs.Time.Timeout
import Jobyard.Proofs.Transaction.Commit

/-!
A single consumer in a calm world. It leases the oldest waiting entry of its queue, as long as all
waiting entries can be read, and acknowledges it; so the waiting entries go one after the other.
-/

namespace Jobyard

namespace JobQueue

theorem accepts_pending_iff {queue : String} {d : Stored} :
    (pending [queue]).accepts d ↔ d.id.collection = Document.collection QueueEntry ∧
      (d.body.member? "queue").any (Json.str queue).same ∧
      ((d.body.member? "fetched_at").getD .null).isNull := by
  have hfilters : (pending [queue]).filters =
      [⟨["queue"], .oneOf [.str queue]⟩, ⟨["fetched_at"], .isNull⟩] := rfl
  have hcollection : (pending [queue]).collection = Document.collection QueueEntry := rfl
  have hnull : (Json.str queue).same .null = false := by simp [Json.same]
  simp only [Query.accepts, hfilters, hcollection, Filter.accepts, Condition.holds,
    Json.follow_cons, Json.follow_nil, List.all_cons, List.all_nil, List.any_cons, List.any_nil]
  cases d.body.member? "queue" <;> cases d.body.member? "fetched_at" <;>
    simp [hnull, Json.isNull]

theorem accepts_pending_of_mem {queues : List String} {entry : QueueEntry} {d : Stored}
    (hcollection : d.id.collection = Document.collection QueueEntry)
    (hbody : d.body = Document.encode entry) (hwaits : entry.fetchedAt = none)
    (hqueue : entry.queue ∈ queues) : (pending queues).accepts d :=
  (accepts_pending_written hbody).mpr ⟨hcollection, hqueue, hwaits⟩

theorem accepts_pending_encode (queue : String) (jobId : JobId) {d : Stored}
    (hcollection : d.id.collection = Document.collection QueueEntry)
    (hbody : d.body = Document.encode (QueueEntry.pending queue jobId)) :
    (pending [queue]).accepts d :=
  accepts_pending_of_mem hcollection hbody rfl List.mem_cons_self

theorem waiting_of_accepts {queue : String} {d : Stored} {entry : QueueEntry}
    (haccepts : (pending [queue]).accepts d) (hdecode : Document.decode? d.body = some entry) :
    entry.fetchedAt = none := by
  obtain ⟨_, hqueue, hfetched⟩ := accepts_pending_iff.mp haccepts
  cases hbody : d.body with
  | obj members =>
      rw [hbody] at hdecode hfetched
      exact Option.isNone_iff_eq_none.mp
        ((QueueEntry.members_of_decode? hdecode).2.symm.trans hfetched)
  | _ =>
      rw [hbody] at hqueue
      cases hqueue

end JobQueue

namespace Memory

theorem meets_exact {m : Memory} {w : Write} {d : Stored} (hfound : m.find? w.id = some d)
    (hdemand : w.demand = some (.exact d.etag)) : m.Meets w := by
  intro expected hexpected
  rw [hdemand] at hexpected
  cases hexpected
  rw [hfound]
  exact beq_self_eq_true d.etag

theorem commit_put_eq {m : Memory} {id : DocId} {d : Stored} (hfound : m.find? id = some d)
    (body : Json) (expiresAt : Option Instant) :
    m.commit [.put id body expiresAt (.exact d.etag)] = .ok { m with
      documents := m.documents.insert id { d with body, etag := d.etag + 1, expiresAt } } := by
  have haccepts : (Expected.exact d.etag).accepts (some d.etag) = true := beq_self_eq_true d.etag
  rw [commit_singleton, write, Write.id, hfound, outcome, Option.map_some, if_pos haccepts]
  rfl

theorem commit_put_of_find? {m : Memory} {id : DocId} {d : Stored} (hfound : m.find? id = some d)
    (body : Json) (expiresAt : Option Instant) :
    ∃ next, m.commit [.put id body expiresAt (.exact d.etag)] = .ok next ∧
      next.find? id = some { d with body, etag := d.etag + 1, expiresAt } ∧
      ∀ other, other ≠ id → next.find? other = m.find? other :=
  ⟨_, commit_put_eq hfound body expiresAt, Dict.find?_insert_self _ _ _,
    fun _ hne => Dict.find?_insert_of_ne _ _ hne⟩

theorem commit_delete_of_find? {m : Memory} {id : DocId} {d : Stored}
    (hfound : m.find? id = some d) :
    ∃ next, m.commit [.delete id (.exact d.etag)] = .ok next ∧ next.find? id = none ∧
      ∀ other, other ≠ id → next.find? other = m.find? other := by
  obtain ⟨next, hwrite⟩ := write_of_meets rfl
    (meets_exact (w := .delete id (.exact d.etag)) hfound rfl)
  rw [← commit_singleton] at hwrite
  obtain ⟨_, _, _, hnext, hothers⟩ := commit_delete_exact hwrite
  exact ⟨next, hwrite, hnext, hothers⟩

theorem query_pending (m : Memory) (queues : List String) :
    ∃ found, m.query (JobQueue.pending queues) = .ok found ∧
      ∀ d, d ∈ found ↔ d ∈ m.accepted (JobQueue.pending queues) := by
  refine ⟨(JobQueue.pending queues).finish (m.accepted (JobQueue.pending queues)), rfl, ?_⟩
  intro d
  exact (List.mergeSort_perm _ _).mem_iff

theorem query_empty {m : Memory} (hempty : m.documents = ∅) {q : Query}
    (hvalid : q.validate = .ok ()) : m.query q = .ok [] := by
  have haccepted : m.accepted q = [] := by
    unfold accepted
    rw [hempty]
    rfl
  have hfinish : q.finish [] = [] := by
    unfold Query.finish
    rw [List.mergeSort_nil]
    cases q.take with
    | none => simp
    | some n => simp
  unfold query
  rw [haccepted, hfinish, hvalid]
  rfl

end Memory

namespace Simulation.World

open JobQueue

variable {α β : Type} {w after : World} {q : JobQueue} {m : Memory}

/-- A world that goes on with a change of one store and the same tokens cancelled. -/
structure Proceeds (w next : World) (store : StoreRef) (m : Memory) : Prop
    extends Follows w next store m where
  tokens : ∀ token, (next.token token).cancelled = (w.token token).cancelled

theorem proceeds_self (w : World) (store : StoreRef) : Proceeds w w store (w.memory store) :=
  ⟨follows_self w store, fun _ => rfl⟩

theorem Proceeds.trans {next last : World} {store : StoreRef} {n : Memory}
    (hfirst : Proceeds w next store m) (hsecond : Proceeds next last store n) :
    Proceeds w last store n :=
  ⟨hfirst.toFollows.trans hsecond.toFollows,
    fun token => (hsecond.tokens token).trans (hfirst.tokens token)⟩

theorem call_commit_ok (hcalm : w.Calm) {store : StoreRef} {batch : Batch} {next : Memory}
    (hcommit : (w.memory store).commit batch = .ok next) :
    ∃ after, w.call store (.commit batch) = (.ok (), after) ∧ Proceeds w after store next := by
  have hanswer := call_commit hcalm store batch
  have hfollows := call_follows hcalm store (.commit batch)
  rw [hcommit] at hanswer
  rw [Memory.after_commit_of_ok hcommit] at hfollows
  refine ⟨(w.call store (.commit batch)).2, Prod.ext hanswer rfl, hfollows, fun token => ?_⟩
  rw [call_eq_of_calm hcalm]
  simp only [apply]
  split <;> rfl

theorem run_claim_claimable (hcalm : w.Calm) {id : DocId} {d : Stored} {entry : QueueEntry}
    (hfound : (w.memory q.store).find? id = some d)
    (hdecode : Document.decode? d.body = some entry)
    (hclaimable : entry.isClaimable w.clock q.invisibility = true) {next : Memory}
    (hcommit : (w.memory q.store).commit (claimBatch id d entry w.clock) = .ok next) :
    ∃ after, w.run (q.claim id).run =
        (.ok (some (Lease.ofEntry q.store id (stamped entry w.clock))), after) ∧
      Proceeds w after q.store next := by
  obtain ⟨after, hcall, hproceeds⟩ := call_commit_ok hcalm hcommit
  refine ⟨after, ?_, hproceeds⟩
  rw [run_claim, run_store, call_load hcalm]
  simp only [Memory.load, List.map_cons, hfound, List.map_nil]
  unfold consider
  rw [hdecode]
  change w.run (if entry.isClaimable w.clock q.invisibility then
    q.stamp id d entry w.clock else .done (.ok none)) = _
  rw [if_pos hclaimable]
  unfold stamp
  rw [run_store, hcall]
  rfl

theorem run_claim_refused (hcalm : w.Calm) {id : DocId} {d : Stored} {entry : QueueEntry}
    (hfound : (w.memory q.store).find? id = some d)
    (hdecode : Document.decode? d.body = some entry)
    (hrefused : entry.isClaimable w.clock q.invisibility = false) :
    w.run (q.claim id).run = (.ok none, w) := by
  rw [run_claim, run_store, call_load hcalm]
  simp only [Memory.load, List.map_cons, hfound, List.map_nil]
  unfold consider
  rw [hdecode]
  change w.run (if entry.isClaimable w.clock q.invisibility then
    q.stamp id d entry w.clock else .done (.ok none)) = _
  rw [hrefused]
  rfl

theorem run_claim_waiting (hcalm : w.Calm) {id : DocId} {d : Stored} {entry : QueueEntry}
    (hfound : (w.memory q.store).find? id = some d)
    (hdecode : Document.decode? d.body = some entry) (hwaiting : entry.fetchedAt = none) :
    ∃ after m, w.run (q.claim id).run =
        (.ok (some (Lease.ofEntry q.store id (stamped entry w.clock))), after) ∧
      Proceeds w after q.store m ∧
      m.find? id = some { d with
        body := Document.encode (stamped entry w.clock), etag := d.etag + 1 } ∧
      ∀ other, other ≠ id → m.find? other = (w.memory q.store).find? other := by
  obtain ⟨m, hcommit, hstamped, hothers⟩ := Memory.commit_put_of_find? hfound
    (Document.encode (stamped entry w.clock)) d.expiresAt
  obtain ⟨after, hrun, hproceeds⟩ := run_claim_claimable hcalm hfound hdecode
    (QueueEntry.isClaimable_of_waiting hwaiting _ _) hcommit
  exact ⟨after, m, hrun, hproceeds, hstamped, hothers⟩

theorem run_ownedEntry (hcalm : w.Calm) {l : Lease} {d : Stored} {entry : QueueEntry}
    (hfound : (w.memory l.store).find? l.entryId = some d)
    (hdecode : Document.decode? d.body = some entry) :
    w.run l.ownedEntry.run =
      (.ok (if entry.fetchedAt = l.claimedAt then some (d, entry) else none), w) := by
  have hload : w.run (Action.store l.store (.load [l.entryId])).run = (.ok [some d], w) := by
    change w.call l.store (.load [l.entryId]) = _
    rw [call_load hcalm]
    simp [Memory.load, hfound]
  have hread : w.run (ExceptT.mk (pure (d.decode QueueEntry)) : Action QueueEntry).run =
      (.ok entry, w) := by
    change (d.decode QueueEntry, w) = _
    rw [Stored.decode, hdecode]
  unfold Lease.ownedEntry
  rw [run_action_bind hload, run_action_bind hread]
  split <;> rfl

theorem run_commitOwned (hcalm : w.Calm) {l : Lease} {write : Write} {m : Memory}
    (hcommit : (w.memory l.store).commit [write] = .ok m) :
    ∃ after, w.run (l.commitOwned write).run = (.ok true, after) ∧
      Proceeds w after l.store m := by
  obtain ⟨after, hcall, hproceeds⟩ := call_commit_ok hcalm hcommit
  refine ⟨after, ?_, hproceeds⟩
  unfold Lease.commitOwned
  change w.run (.call (.store l.store (.commit [write])) _) = _
  rw [run_store, hcall]
  rfl

theorem run_acknowledge_owned (hcalm : w.Calm) {l : Lease} {d : Stored} {entry : QueueEntry}
    (hfound : (w.memory l.store).find? l.entryId = some d)
    (hdecode : Document.decode? d.body = some entry) (howned : entry.fetchedAt = l.claimedAt) :
    ∃ after m, w.run l.acknowledge.run = (.ok { l with resolved := true }, after) ∧
      Proceeds w after l.store m ∧ m.find? l.entryId = none ∧
      ∀ other, other ≠ l.entryId → m.find? other = (w.memory l.store).find? other := by
  obtain ⟨m, hcommit, hgone, hothers⟩ := Memory.commit_delete_of_find? hfound
  obtain ⟨after, hcommitted, hproceeds⟩ := run_commitOwned hcalm hcommit
  refine ⟨after, m, ?_, hproceeds, hgone, hothers⟩
  have howns := run_ownedEntry hcalm hfound hdecode
  rw [if_pos howned] at howns
  have hremoved : w.run (discard (l.commitOwned (.delete l.entryId (.exact d.etag))) :
      Action PUnit).run = (.ok (), after) :=
    run_action_bind hcommitted _
  unfold Lease.acknowledge
  rw [run_action_bind howns]
  exact run_action_bind hremoved _

theorem run_query {α : Type} [Document α] (hcalm : w.Calm) {store : StoreRef} {query : Query}
    {found : List Stored} (hquery : (w.memory store).query query = .ok found) :
    w.run (Work.alone store (Work.query α query)).run =
      w.run (Work.start (Work.gather α found) (Session.empty store true) >>=
        fun result => .done result.1) := by
  rw [Work.run_alone]
  unfold Work.query
  rw [Work.start_bind, Work.start_askStore,
    show (Session.empty store true).store = store from rfl, Interaction.call_bind,
    Interaction.call_bind, run_store, call_query hcalm, hquery]
  rfl

theorem run_claimFirst_nil (hcalm : w.Calm) {query : Query}
    (hquery : (w.memory q.store).query query = .ok []) :
    w.run (q.claimFirst query).run = (.ok none, w) := by
  unfold claimFirst
  rw [run_action_bind (run_query hcalm hquery)]
  rfl

theorem run_tryClaim_some {queues : List String} {lease : Lease}
    (hfirst : w.run (q.claimFirst (pending queues)).run = (.ok (some lease), after)) :
    w.run (q.tryClaim queues).run = (.ok (some lease), after) := by
  unfold tryClaim
  rw [run_action_bind hfirst]
  rfl

theorem run_tryClaim_none {queues : List String}
    (hfirst : w.run (q.claimFirst (pending queues)).run = (.ok none, w)) :
    w.run (q.tryClaim queues).run =
      match w.clock.minus? q.invisibility with
      | none => (.ok none, w)
      | some cutoff => w.run (q.claimFirst (stale queues cutoff)).run := by
  have hnow : w.run Action.now.run = (.ok w.clock, w) := rfl
  unfold tryClaim
  rw [run_action_bind hfirst]
  simp only
  rw [run_action_bind hnow]
  cases w.clock.minus? q.invisibility <;> rfl

theorem run_tryClaim_empty (hcalm : w.Calm) (hempty : (w.memory q.store).documents = ∅)
    (queue : String) : w.run (q.tryClaim [queue]).run = (.ok none, w) := by
  rw [run_tryClaim_none (run_claimFirst_nil hcalm (Memory.query_empty hempty rfl))]
  cases w.clock.minus? q.invisibility with
  | none => rfl
  | some cutoff => exact run_claimFirst_nil hcalm (Memory.query_empty hempty rfl)

def Readable (m : Memory) (queue : String) : Prop :=
  ∀ d ∈ m.accepted (pending [queue]), (Document.decode? d.body : Option QueueEntry).isSome

instance (m : Memory) (queue : String) : Decidable (Readable m queue) :=
  inferInstanceAs (Decidable (∀ d ∈ m.accepted (pending [queue]),
    (Document.decode? d.body : Option QueueEntry).isSome))

theorem run_waiting (hcalm : w.Calm) (hkeyed : (w.memory q.store).Keyed) (queue : String) :
    ∃ found, (w.memory q.store).query (pending [queue]) = .ok found ∧
      (∀ d, d ∈ found ↔ d ∈ (w.memory q.store).accepted (pending [queue])) ∧
      ((Readable (w.memory q.store) queue ∧ ∃ gathered,
          w.run (Work.alone q.store (Work.query QueueEntry (pending [queue]))).run =
            (.ok gathered, w) ∧ gathered.map (·.1) = found.map (·.id)) ∨
        (¬ Readable (w.memory q.store) queue ∧ ∃ e,
          w.run (Work.alone q.store (Work.query QueueEntry (pending [queue]))).run =
            (.error e, w))) := by
  obtain ⟨found, hquery, hmem⟩ := (w.memory q.store).query_pending [queue]
  refine ⟨found, hquery, hmem, ?_⟩
  have hfound : ∀ d ∈ found, (w.memory q.store).find? d.id = some d :=
    fun d hd => (Memory.mem_of_query hkeyed hquery hd).1
  have hmirrors : (Session.empty q.store true).Mirrors (w.memory q.store) :=
    Session.mirrors_of_empty rfl
  rw [run_query hcalm hquery]
  by_cases hreadable : Readable (w.memory q.store) queue
  · obtain ⟨gathered, next, hstart, hids⟩ := Work.start_gather_readable hmirrors hfound
      fun d hd => hreadable d ((hmem d).mp hd)
    rw [hstart]
    exact .inl ⟨hreadable, gathered, rfl, hids⟩
  · have hunreadable : ∃ d ∈ found, (Document.decode? d.body : Option QueueEntry) = none := by
      obtain ⟨d, hd⟩ := Classical.not_forall.mp hreadable
      obtain ⟨haccepted, hnone⟩ := Classical.not_imp.mp hd
      exact ⟨d, (hmem d).mpr haccepted, by simpa using hnone⟩
    obtain ⟨e, next, hstart⟩ := Work.start_gather_unreadable hmirrors hfound hunreadable
    rw [hstart]
    exact .inr ⟨hreadable, e, rfl⟩

theorem run_tryClaim_waiting (hcalm : w.Calm) (hkeyed : (w.memory q.store).Keyed) {queue : String}
    (hreadable : Readable (w.memory q.store) queue)
    (hwaiting : ∃ d, d ∈ (w.memory q.store).accepted (pending [queue])) :
    ∃ d entry after m, d ∈ (w.memory q.store).accepted (pending [queue]) ∧
      (w.memory q.store).find? d.id = some d ∧ Document.decode? d.body = some entry ∧
      w.run (q.tryClaim [queue]).run =
        (.ok (some (Lease.ofEntry q.store d.id (stamped entry w.clock))), after) ∧
      Proceeds w after q.store m ∧
      m.find? d.id = some { d with
        body := Document.encode (stamped entry w.clock), etag := d.etag + 1 } ∧
      ∀ other, other ≠ d.id → m.find? other = (w.memory q.store).find? other := by
  obtain ⟨found, hquery, hmem, ⟨_, gathered, hrun, hids⟩ | ⟨hnot, _⟩⟩ :=
    run_waiting hcalm hkeyed queue
  · cases found with
    | nil =>
        obtain ⟨d, hd⟩ := hwaiting
        exact nomatch (hmem d).mpr hd
    | cons d rest =>
        have haccepted := (hmem d).mp List.mem_cons_self
        obtain ⟨hfound, haccepts⟩ := Memory.mem_of_query hkeyed hquery List.mem_cons_self
        obtain ⟨entry, hdecode⟩ := Option.isSome_iff_exists.mp (hreadable d haccepted)
        obtain ⟨after, m, hclaim, hproceeds, hstamped, hothers⟩ :=
          run_claim_waiting hcalm hfound hdecode (waiting_of_accepts haccepts hdecode)
        refine ⟨d, entry, after, m, haccepted, hfound, hdecode, ?_, hproceeds, hstamped, hothers⟩
        have hfirst : w.run (q.claimFirst (pending [queue])).run =
            (.ok (some (Lease.ofEntry q.store d.id (stamped entry w.clock))), after) := by
          unfold claimFirst
          rw [run_action_bind hrun, hids, List.map_cons]
          unfold claimAny
          rw [run_action_bind hclaim]
          rfl
        exact run_tryClaim_some hfirst
  · exact absurd hreadable hnot

theorem run_tryClaim_unreadable (hcalm : w.Calm) (hkeyed : (w.memory q.store).Keyed)
    {queue : String} (hunreadable : ¬ Readable (w.memory q.store) queue) :
    ∃ e, w.run (q.tryClaim [queue]).run = (.error e, w) := by
  obtain ⟨_, _, _, ⟨hreadable, _⟩ | ⟨_, e, hrun⟩⟩ := run_waiting hcalm hkeyed queue
  · exact absurd hreadable hunreadable
  · exact ⟨e, run_action_bind_error (run_action_bind_error hrun _) _⟩

theorem run_isCancelled {token : TokenRef} (hlive : (w.token token).cancelled = false) :
    w.run (Token.isCancelled token) = (false, w) := by
  rw [← hlive]
  rfl

theorem run_passes_succ {queues : List String} {token : TokenRef}
    {result : Except StoreError (Option Lease)} (hlive : (w.token token).cancelled = false)
    (htry : w.run (q.tryClaim queues).run = (result, after)) (more : Nat) :
    w.run (q.passes queues token (more + 1)) = after.run (match result with
      | .error e => pure (.error (.store e))
      | .ok (some lease) => pure (.ok (some lease))
      | .ok none => do
        if ← Token.isCancelled token then return .error .cancelled
        discard (Signal.wait q.signal (w.generation q.signal) q.pollInterval)
        q.passes queues token more) := by
  have hgeneration : w.run (Signal.generation q.signal) = (w.generation q.signal, w) := rfl
  rw [passes, run_bind, run_isCancelled hlive]
  simp only [Bool.false_eq_true, if_false]
  rw [run_bind, hgeneration, run_bind]
  unfold Action.outcome
  rewrite [htry]
  rfl

theorem run_passes {queues : List String} {token : TokenRef} {more : Nat}
    {result : Except StoreError (Option Lease)} (hlive : (w.token token).cancelled = false)
    (htry : w.run (q.tryClaim queues).run = (result, after)) (hends : result ≠ .ok none) :
    w.run (q.passes queues token (more + 1)) =
      (result.mapError .store, after) := by
  rw [run_passes_succ hlive htry]
  match result with
  | .ok none => exact absurd rfl hends
  | .ok (some lease) => rfl
  | .error e => rfl

theorem run_passes_idle {queues : List String} {token : TokenRef}
    (hlive : (w.token token).cancelled = false)
    (htry : w.run (q.tryClaim queues).run = (.ok none, w)) (limit : Nat) :
    w.run (q.passes queues token limit) = (.ok none, w) := by
  induction limit with
  | zero => rfl
  | succ limit ih =>
      rw [run_passes_succ hlive htry]
      simp only
      rw [run_bind, run_isCancelled hlive]
      simp only [Bool.false_eq_true, if_false]
      exact ih

theorem proceeds_watch (w : World) (token : TokenRef) (signal : SignalRef) (store : StoreRef) :
    Proceeds w (w.watch token signal) store (w.memory store) := by
  unfold watch
  simp only
  split
  · exact proceeds_self w store
  · refine ⟨⟨rfl, fun _ _ => rfl, rfl, rfl, rfl, rfl⟩, fun other => ?_⟩
    unfold withToken World.token
    by_cases hindex : other.index = token.index
    · simp [hindex]
    · simp [Dict.find?_insert_of_ne _ _ hindex]

theorem run_dequeue_live {queue : String} {token : TokenRef}
    (hlive : (w.token token).cancelled = false) (limit : Nat) :
    w.run (q.dequeue [queue] token limit) =
      (w.watch token q.signal).run (q.passes [queue] token limit) := by
  have hwatched : ((w.watch token q.signal).token token).cancelled = false := by
    rw [(proceeds_watch w token q.signal q.store).tokens, hlive]
  have hregister : w.run (Token.register token q.signal) = ((), w.watch token q.signal) := by
    unfold Token.register
    change (w.watch token q.signal).run (if ((w.watch token q.signal).token token).cancelled
      then Signal.notify q.signal else pure ()) = _
    rw [hwatched]
    rfl
  unfold dequeue
  rw [List.isEmpty_cons, if_neg Bool.false_ne_true, run_bind, hregister]

theorem run_dequeue (more : Nat) {queue : String} {token : TokenRef}
    {result : Except StoreError (Option Lease)} (hlive : (w.token token).cancelled = false)
    (htry : (w.watch token q.signal).run (q.tryClaim [queue]).run = (result, after))
    (hends : result ≠ .ok none) :
    w.run (q.dequeue [queue] token (more + 1)) = (result.mapError .store, after) := by
  have hwatch := proceeds_watch w token q.signal q.store
  rw [run_dequeue_live hlive]
  exact run_passes ((hwatch.tokens token).trans hlive) htry hends

end Simulation.World

end Jobyard
