import Jobyard.Proofs.Program.Conduct
import Jobyard.Proofs.Session.Start
import Jobyard.Queue.JobQueue

/-!
The conduct of consumers. Whatever its store answers, a consumer writes nothing but a stamp on an
entry that it found, loaded and saw to be claimable; it does so under the version that it loaded,
and once such a write is accepted it asks for nothing more and ends with the lease.
-/

namespace Jobyard

namespace JobQueue

open Work

def stamped (entry : QueueEntry) (now : Instant) : QueueEntry :=
  { entry with fetchedAt := some now }

def claimBatch (id : DocId) (d : Stored) (entry : QueueEntry) (now : Instant) : Batch :=
  [.put id (Document.encode (stamped entry now)) d.expiresAt (.exact d.etag)]

def stamp (q : JobQueue) (id : DocId) (d : Stored) (entry : QueueEntry) (now : Instant) :
    Program (Except StoreError (Option Lease)) :=
  .call (.store q.store (.commit (claimBatch id d entry now))) fun reply =>
    match reply with
    | .ok _ => .done (.ok (some (Lease.ofEntry q.store id (stamped entry now))))
    | .error e => .done (if e.isRetryable then .ok none else .error e)

def consider (q : JobQueue) (id : DocId) (d : Stored) :
    Program (Except StoreError (Option Lease)) :=
  match (Document.decode? d.body : Option QueueEntry) with
  | none => .done (.error (.document id .shape))
  | some entry =>
    .call .now fun now =>
      if entry.isClaimable now q.invisibility then q.stamp id d entry now else .done (.ok none)

def loadedSession (store : StoreRef) (id : DocId) (d : Stored) : Session :=
  ⟨store, [(id, .ofStored d)], [], true⟩

theorem find?_loadedSession (store : StoreRef) (id : DocId) (d : Stored) :
    (loadedSession store id d).find? id = some (.ofStored d) := by
  simp [loadedSession, Session.find?]

theorem batch_put_loadedSession (store : StoreRef) (id : DocId) (d : Stored) (body : Json) :
    ((loadedSession store id d).put id body).batch =
      [.put id body d.expiresAt (.exact d.etag)] := by
  unfold Session.put
  rw [find?_loadedSession]
  simp [loadedSession, Session.track, Session.place, Session.batch, Tracked.write?,
    Tracked.ofStored]

theorem store_put_loadedSession (store : StoreRef) (id : DocId) (d : Stored) (body : Json) :
    ((loadedSession store id d).put id body).store = store := by
  unfold Session.put
  rw [find?_loadedSession]
  rfl

theorem start_stamp (q : JobQueue) (id : DocId) (d : Stored) (entry : QueueEntry)
    (now : Instant) :
    (start (do
        Work.save id (stamped entry now)
        tryCatch (do
            Work.saveChanges
            pure (some (Lease.ofEntry q.store id (stamped entry now))))
          fun e => if e.isRetryable then pure none else throw e) (loadedSession q.store id d) >>=
      fun result => .done result.1) = q.stamp id d entry now := by
  unfold stamp
  have hbatch := batch_put_loadedSession q.store id d (Document.encode (stamped entry now))
  rw [start_bind]
  change (start (tryCatch _ _) ((loadedSession q.store id d).put id
    (Document.encode (stamped entry now))) >>= _) = _
  rw [start_tryCatch, start_bind, start_saveChanges, hbatch, store_put_loadedSession,
    if_neg (by simp)]
  simp only [Interaction.call_bind]
  unfold claimBatch
  congr 1
  funext reply
  cases reply with
  | ok _ => rfl
  | error e =>
      simp only [Interaction.done_bind]
      cases e.isRetryable <;> rfl

theorem run_claim (q : JobQueue) (id : DocId) :
    (q.claim id).run = .call (.store q.store (.load [id])) fun reply =>
      match reply with
      | .ok (some d :: _) => q.consider id d
      | .ok _ => .done (.ok none)
      | .error e => .done (.error e) := by
  unfold claim Work.load
  rw [run_alone, start_bind, start_bind, start_ensureLoaded]
  have hmissing : missing (Session.empty q.store true) [id] = [id] := rfl
  rw [hmissing, if_neg (by simp)]
  simp only [Interaction.call_bind]
  congr 1
  funext reply
  match reply with
  | .error e => rfl
  | .ok [] => rfl
  | .ok (none :: rest) =>
      let s : Session := ⟨q.store, [(id, .absent)], [], true⟩
      have hfound : s.find? id = some .absent := by simp [s, Session.find?]
      change (start (view QueueEntry id) s >>= _) >>= _ = _
      rw [start_view, hfound]
      rfl
  | .ok (some d :: rest) =>
      change (start (view QueueEntry id) (loadedSession q.store id d) >>= _) >>= _ =
        q.consider id d
      rw [start_view, find?_loadedSession]
      change (Interaction.done (Tracked.decode QueueEntry id (Tracked.ofStored d), _) >>= _) >>=
        _ = q.consider id d
      unfold consider Tracked.decode
      simp only [Tracked.ofStored]
      cases (Document.decode? d.body : Option QueueEntry) with
      | none => rfl
      | some entry =>
          simp only [Interaction.done_bind]
          rw [start_bind, start_now]
          simp only [Interaction.call_bind, Interaction.done_bind]
          congr 1
          funext now
          split
          · exact q.start_stamp id d entry now
          · rfl

def Found (store : StoreRef) (log : Log) (id : DocId) : Prop :=
  ∃ exchange ∈ log, exchange.Finds store (Document.collection QueueEntry) id

/-- What a consumer knows of an entry when it stamps it: the entry was found by a query, loaded and
decoded, and it is claimable by the clock. -/
structure Sees (q : JobQueue) (log : Log) (id : DocId) (d : Stored) (entry : QueueEntry)
    (now : Instant) : Prop where
  found : Found q.store log id
  loaded : ∃ exchange ∈ log, exchange.Loads q.store id d
  decoded : Document.decode? d.body = some entry
  claimable : entry.isClaimable now q.invisibility
  clock : ⟨.now, now⟩ ∈ log

def Asks (q : JobQueue) (log : Log) (request : Request) : Prop :=
  ¬ log.Committed ∧
    match request with
    | .store target call =>
      target = q.store ∧
        match call with
        | .load _ | .query _ => True
        | .commit batch =>
          ∃ id d entry now, q.Sees log id d entry now ∧ batch = claimBatch id d entry now
        | _ => False
    | .freshText | .raise _ | .takeWatched _ | .perform _ => False
    | _ => True

/-- A consumer ends with a lease exactly when its last request was a write that was accepted. -/
def Ends (q : JobQueue) (log : Log) (lease : Option Lease) : Prop :=
  match lease with
  | some lease =>
    ∃ (exchange : Exchange) (earlier : Log) (id : DocId) (d : Stored) (entry : QueueEntry)
        (now : Instant), log = exchange :: earlier ∧ ¬ earlier.Committed ∧
      q.Sees earlier id d entry now ∧ exchange.accepted? = some (claimBatch id d entry now) ∧
      lease = Lease.ofEntry q.store id (stamped entry now)
  | none => ¬ log.Committed

def leaseOf {ε : Type} (outcome : Except ε (Option Lease)) : Option Lease :=
  outcome.toOption.join

variable {q : JobQueue} {log : Log}

theorem conforms_stamp {id : DocId} {d : Stored} {entry : QueueEntry} {now : Instant}
    (hnone : ¬ log.Committed) (hsees : q.Sees log id d entry now) :
    (q.stamp id d entry now).Conforms q.Asks
      (fun log result => q.Ends log (leaseOf result)) log := by
  refine ⟨⟨hnone, rfl, id, d, entry, now, hsees, rfl⟩, fun reply => ?_⟩
  cases reply with
  | ok _ => exact ⟨_, log, id, d, entry, now, rfl, hnone, hsees, rfl, rfl⟩
  | error e =>
      have hstill : ¬ Log.Committed (⟨.store q.store (.commit (claimBatch id d entry now)),
          .error e⟩ :: log) := Log.not_committed_cons _ rfl hnone
      change q.Ends _ (leaseOf (if e.isRetryable then .ok none else .error e))
      split <;> exact hstill

theorem conforms_claim {id : DocId} (hnone : ¬ log.Committed)
    (hfound : Found q.store log id) :
    (q.claim id).run.Conforms q.Asks (fun log result => q.Ends log (leaseOf result)) log := by
  rw [run_claim]
  refine ⟨⟨hnone, rfl, trivial⟩, fun reply => ?_⟩
  have hstill : ¬ Log.Committed (⟨.store q.store (.load [id]), reply⟩ :: log) := by
    cases reply <;> exact Log.not_committed_cons _ rfl hnone
  match reply with
  | .error e => exact hstill
  | .ok [] => exact hstill
  | .ok (none :: _) => exact hstill
  | .ok (some d :: rest) =>
      change (q.consider id d).Conforms _ _ _
      unfold consider
      cases hdecoded : (Document.decode? d.body : Option QueueEntry) with
      | none => exact hstill
      | some entry =>
          refine ⟨⟨hstill, trivial⟩, fun now => ?_⟩
          obtain ⟨exchange, hmem, hfinds⟩ := hfound
          simp only
          split
          · rename_i hclaimable
            apply conforms_stamp
            · exact Log.not_committed_cons _ rfl hstill
            · refine ⟨⟨exchange, ?_, hfinds⟩, ⟨⟨.store q.store (.load [id]), .ok (some d :: rest)⟩,
                ?_, ?_⟩, hdecoded, hclaimable, ?_⟩
              · exact List.mem_cons_of_mem _ (List.mem_cons_of_mem _ hmem)
              · exact List.mem_cons_of_mem _ List.mem_cons_self
              · exact ⟨rfl, List.mem_cons_self⟩
              · exact List.mem_cons_self
          · exact Log.not_committed_cons _ rfl hstill

theorem conforms_claimAny {ids : List DocId} (hnone : ¬ log.Committed)
    (hfound : ∀ id ∈ ids, Found q.store log id) :
    (q.claimAny ids).run.Conforms q.Asks (fun log result => q.Ends log (leaseOf result)) log := by
  induction ids generalizing log with
  | nil => exact hnone
  | cons id rest ih =>
      have hrest : ∀ other ∈ rest, Found q.store log other :=
        fun other hother => hfound other (List.mem_cons_of_mem id hother)
      have hstable : ∀ (log : Log) (exchange : Exchange),
          (∀ other ∈ rest, Found q.store log other) →
          ∀ other ∈ rest, Found q.store (exchange :: log) other := by
        intro log exchange hknown other hother
        obtain ⟨finding, hmem, hfinds⟩ := hknown other hother
        exact ⟨finding, List.mem_cons_of_mem exchange hmem, hfinds⟩
      have hclaim := conforms_claim hnone (hfound id List.mem_cons_self)
      refine (hclaim.and_of_stable hrest hstable).bind_action (fun log lease hmiddle => ?_)
        fun log e hmiddle => hmiddle.1
      obtain ⟨hends, hknown⟩ := hmiddle
      cases lease with
      | some lease => exact hends
      | none => exact ih hends hknown

theorem conforms_claimFirst {query : Query} (hnone : ¬ log.Committed)
    (hcollection : query.collection = Document.collection QueueEntry) :
    (q.claimFirst query).run.Conforms q.Asks
      (fun log result => q.Ends log (leaseOf result)) log := by
  have hquery : (alone q.store (Work.query QueueEntry query)).run.Conforms q.Asks
      (fun log result => ¬ log.Committed ∧
        ∀ candidates, result = .ok candidates → ∀ c ∈ candidates, Found q.store log c.1) log := by
    rw [run_alone]
    unfold Work.query
    rw [start_bind, start_askStore]
    refine ⟨⟨hnone, rfl, trivial⟩, fun reply => ?_⟩
    cases reply with
    | error e => exact ⟨Log.not_committed_cons _ rfl hnone, fun _ h => nomatch h⟩
    | ok found =>
        obtain ⟨result, next, hstart, hgathered⟩ :=
          start_gather QueueEntry found (Session.empty q.store true)
        change Program.Conforms _ _ _ (start (gather QueueEntry found) _ >>= _)
        rw [hstart]
        refine ⟨Log.not_committed_cons _ rfl hnone, ?_⟩
        intro candidates h c hc
        obtain ⟨d, hd, hid⟩ := hgathered candidates h c hc
        exact ⟨_, List.mem_cons_self, rfl, hcollection, d, hd, hid⟩
  refine hquery.bind_action (fun log candidates hmiddle => ?_) fun log e hmiddle => hmiddle.1
  apply conforms_claimAny hmiddle.1
  intro id hid
  obtain ⟨c, hc, rfl⟩ := List.mem_map.mp hid
  exact hmiddle.2 candidates rfl c hc

theorem conforms_tryClaim {queues : List String} (hnone : ¬ log.Committed) :
    (q.tryClaim queues).run.Conforms q.Asks
      (fun log result => q.Ends log (leaseOf result)) log := by
  refine (conforms_claimFirst hnone rfl).bind_action (fun log lease hmiddle => ?_)
    fun log e hmiddle => hmiddle
  cases lease with
  | some lease => exact hmiddle
  | none =>
      refine ⟨⟨hmiddle, trivial⟩, fun now => ?_⟩
      have hstill : ¬ Log.Committed (⟨.now, now⟩ :: log) := Log.not_committed_cons _ rfl hmiddle
      dsimp only [Interaction.bind, ExceptT.bindCont, Function.comp]
      cases now.minus? q.invisibility with
      | none => exact hstill
      | some cutoff => exact conforms_claimFirst hstill rfl

theorem conforms_passes {queues : List String} {token : TokenRef} {limit : Nat}
    (hnone : ¬ log.Committed) :
    (q.passes queues token limit).Conforms q.Asks
      (fun log result => q.Ends log (leaseOf result)) log := by
  induction limit generalizing log with
  | zero => exact hnone
  | succ more ih =>
      refine ⟨⟨hnone, trivial⟩, fun cancelled => ?_⟩
      have hfirst := Log.not_committed_cons ⟨.isCancelled token, cancelled⟩ rfl hnone
      cases cancelled with
      | true => exact hfirst
      | false =>
          refine ⟨⟨hfirst, trivial⟩, fun seen => ?_⟩
          refine (conforms_tryClaim (Log.not_committed_cons _ rfl hfirst)).bind
            fun log result hmiddle => ?_
          match result with
          | .error e => exact hmiddle
          | .ok (some lease) => exact hmiddle
          | .ok none =>
              refine ⟨⟨hmiddle, trivial⟩, fun cancelled => ?_⟩
              have hstill := Log.not_committed_cons ⟨.isCancelled token, cancelled⟩
                rfl hmiddle
              cases cancelled with
              | true => exact hstill
              | false =>
                  refine ⟨⟨hstill, trivial⟩, fun generation => ?_⟩
                  exact ih (Log.not_committed_cons _ rfl hstill)

theorem conforms_dequeue (q : JobQueue) (queues : List String) (token : TokenRef) (limit : Nat) :
    (q.dequeue queues token limit).Conforms q.Asks
      (fun log result => q.Ends log (leaseOf result)) [] := by
  have hnone := Log.not_committed_nil
  unfold dequeue
  split
  · exact hnone
  · refine ⟨⟨hnone, trivial⟩, fun _ => ?_⟩
    have hwatched := Log.not_committed_cons ⟨.watch token q.signal, ()⟩ rfl hnone
    refine ⟨⟨hwatched, trivial⟩, fun cancelled => ?_⟩
    have hasked := Log.not_committed_cons ⟨.isCancelled token, cancelled⟩ rfl hwatched
    cases cancelled with
    | false => exact conforms_passes hasked
    | true =>
        refine ⟨⟨hasked, trivial⟩, fun _ => ?_⟩
        exact conforms_passes (Log.not_committed_cons _ rfl hasked)

end JobQueue

end Jobyard
