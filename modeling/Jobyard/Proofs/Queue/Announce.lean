import Jobyard.Connection.Basic
import Jobyard.Proofs.Transaction.Conduct

/-!
The announcements of producers. An entry is announced on the signal of its queue after the batch
that writes it was accepted, and a producer that says it has gone well has announced its entries.
-/

namespace Jobyard

def Request.LeavesTokens : Request → Prop
  | .raise _ | .takeWatched _ => False
  | _ => True

/-- The only write of a batch to a document creates an entry. -/
def Batch.Enters (batch : Batch) (id : DocId) (entry : QueueEntry) : Prop :=
  (batch.filter fun w => w.id = id) = [.put id (Document.encode entry) none .absent]

structure Log.Announces (store : StoreRef) (signal : SignalRef) (id : DocId) (entry : QueueEntry)
    (log : Log) : Prop where
  collection : id.collection = Document.collection QueueEntry
  committed : ∃ newer batch older, log = newer ++ ⟨.store store (.commit batch), .ok ()⟩ :: older ∧
    batch.Enters id entry ∧ ⟨.notify signal, ()⟩ ∈ newer

theorem Log.nodup_drawn_of_cons {exchange : Exchange} {log : Log}
    (h : (Log.drawn (exchange :: log)).Nodup) : log.drawn.Nodup :=
  h.sublist ((List.sublist_cons_self exchange log).filterMap _)

theorem Log.mem_drawn_cons {text : String} {log : Log} (exchange : Exchange)
    (h : text ∈ log.drawn) : text ∈ Log.drawn (exchange :: log) :=
  ((List.sublist_cons_self exchange log).filterMap _).subset h

theorem Log.nodup_drawn_of_append {front log : Log} (h : (front ++ log).drawn.Nodup) :
    log.drawn.Nodup :=
  h.sublist ((List.sublist_append_right front log).filterMap _)

theorem leavesTokens_of_observes {store : StoreRef} {log : Log} {request : Request}
    (h : Work.Observes store log request) : request.LeavesTokens := by
  rcases h.2 with rfl | ⟨_, rfl⟩ <;> trivial

theorem TransactionPlan.all_true (plan : TransactionPlan) : plan.All fun _ => True := by
  induction plan with
  | perform op next ih => exact ⟨trivial, ih⟩
  | _ => trivial

theorem JobQueue.run_enqueue (q : JobQueue) (queue : String) (jobId : JobId) :
    (q.enqueue queue jobId).run = .call .freshText fun key =>
      .call (.store q.store (.commit [.put (Document.idFor QueueEntry key)
        (Document.encode (QueueEntry.pending queue jobId)) none .absent])) fun reply =>
        match reply with
        | .ok _ => .call (.notify q.signal) fun _ => .done (.ok ())
        | .error e => .done (.error e) := by
  have hbatch : ∀ key, (draftSession q.store [(Document.idFor QueueEntry key,
      QueueEntry.pending queue jobId)]).batch = creations [(Document.idFor QueueEntry key,
        QueueEntry.pending queue jobId)] := fun _ => batch_draftSession _ _
  change Interaction.call Request.freshText (fun key => (Work.start Work.saveChanges (draftSession
    q.store [(Document.idFor QueueEntry key, QueueEntry.pending queue jobId)]) >>= _) >>= _) = _
  congr 1
  funext key
  rw [Work.start_saveChanges, hbatch, if_neg (by simp [creations]), Interaction.call_bind,
    Interaction.call_bind]
  congr 1
  funext reply
  cases reply <;> rfl

theorem JobQueue.announces_enqueue (q : JobQueue) (queue : String) (jobId : JobId) :
    (q.enqueue queue jobId).run.Conforms (fun _ => Request.LeavesTokens)
      (fun log result => ∀ value, result = .ok value →
        ∃ id, log.Announces q.store q.signal id (QueueEntry.pending queue jobId)) [] := by
  rw [run_enqueue]
  refine ⟨trivial, fun key => ⟨trivial, fun reply => ?_⟩⟩
  cases reply with
  | error e => exact fun _ heq => nomatch heq
  | ok _ =>
      refine ⟨trivial, fun _ _ _ => ⟨Document.idFor QueueEntry key, rfl, [_], _, [_], rfl, ?_, ?_⟩⟩
      · simp [Batch.Enters, Write.id]
      · exact List.mem_cons_self

namespace Step

theorem announces_runAll (actions : List AfterCommit) {log : Log} :
    (runAll actions).Conforms (fun _ => Request.LeavesTokens)
      (fun last _ => ∃ front, last = front ++ log ∧
        ∀ signal, .wake signal ∈ actions → ⟨.notify signal, ()⟩ ∈ front) log := by
  induction actions generalizing log with
  | nil => exact ⟨[], rfl, fun _ h => nomatch h⟩
  | cons action rest ih =>
      have hrest : ∀ exchange : Exchange,
          (∀ signal, action = .wake signal → exchange = ⟨.notify signal, ()⟩) →
          (runAll rest).Conforms (fun _ => Request.LeavesTokens)
            (fun last _ => ∃ front, last = front ++ log ∧
              ∀ signal, .wake signal ∈ action :: rest → ⟨.notify signal, ()⟩ ∈ front)
            (exchange :: log) := by
        intro exchange hexchange
        refine ih.mono fun last _ ⟨front, hlast, hfront⟩ => ?_
        refine ⟨front ++ [exchange], hlast.trans (List.append_cons ..), fun signal hmem => ?_⟩
        rcases List.mem_cons.mp hmem with hfirst | hlater
        · rw [← hexchange signal hfirst.symm]
          exact List.mem_append_right _ List.mem_cons_self
        · exact List.mem_append_left _ (hfront signal hlater)
      cases action with
      | wake signal => exact ⟨trivial, fun _ => hrest _ fun other heq => by cases heq; rfl⟩
      | perform text => exact ⟨trivial, fun _ => hrest _ fun other heq => nomatch heq⟩

end Step

namespace TransactionPlan

structure Promises (c : Connection) (log : Log) (done : List Operation) (t : Transaction) :
    Prop where
  store : t.session.store = c.store
  routing : t.routing = c.routing
  optimistic : t.session.optimistic = true
  distinct : t.session.Distinct
  deferred : ∀ w ∈ t.session.deferred, w.id.collection ≠ Document.collection QueueEntry
  drawn : ∀ id u, t.session.find? id = some u → id.collection = Document.collection QueueEntry →
    id.key ∈ log.drawn
  entries : log.drawn.Nodup → ∀ queue jobId, .addToQueue queue jobId ∈ done →
    .wake (c.routing.serving queue).signal ∈ t.afterCommit ∧
      ∃ id, id.collection = Document.collection QueueEntry ∧ t.session.find? id =
        some (Tracked.unasked.hold (Document.encode (QueueEntry.pending queue jobId)))

variable {c : Connection} {log : Log} {done : List Operation} {t : Transaction}

theorem promises_start (c : Connection) : Promises c [] [] c.transaction where
  store := rfl
  routing := rfl
  optimistic := rfl
  distinct := Session.distinct_empty c.store true
  deferred _ h := nomatch h
  drawn _ _ h := nomatch h
  entries _ _ _ h := nomatch h

theorem Promises.cons (h : Promises c log done t) (exchange : Exchange) :
    Promises c (exchange :: log) done t where
  store := h.store
  routing := h.routing
  optimistic := h.optimistic
  distinct := h.distinct
  deferred := h.deferred
  drawn id u hfound hid := Log.mem_drawn_cons exchange (h.drawn id u hfound hid)
  entries hnodup := h.entries (Log.nodup_drawn_of_cons hnodup)

theorem Promises.edited (h : Promises c log done t) {e : Edit} {u : Tracked} {writes : List Write}
    {next : Session} (hamends : t.session.Amends next e.id u writes)
    (hwrites : ∀ w ∈ writes, w.id = e.id) (ended : Bool) :
    Promises c log (if ended then done ++ [.edit e] else done) { t with session := next } where
  store := hamends.store.trans h.store
  routing := h.routing
  optimistic := hamends.optimistic.trans h.optimistic
  distinct := hamends.distinct h.distinct
  deferred w hmem := by
    rw [hamends.deferred] at hmem
    rcases List.mem_append.mp hmem with hearlier | hnew
    · exact h.deferred w hearlier
    · rw [hwrites w hnew]
      exact e.collection_ne
  drawn id v hfound hid := by
    have hne : id ≠ e.id := fun hsame => e.collection_ne (hsame ▸ hid)
    rw [hamends.others id hne] at hfound
    exact h.drawn id v hfound hid
  entries hnodup queue jobId hmem := by
    have hdone : .addToQueue queue jobId ∈ done := by
      cases ended with
      | false => exact hmem
      | true => simpa using hmem
    obtain ⟨hwake, id, hid, hfound⟩ := h.entries hnodup queue jobId hdone
    have hne : id ≠ e.id := fun hsame => e.collection_ne (hsame ▸ hid)
    exact ⟨hwake, id, hid, (hamends.others id hne).trans hfound⟩

theorem Promises.added (h : Promises c log done t) (key queue : String) (jobId : JobId) :
    Promises c (⟨.freshText, key⟩ :: log) (done ++ [.addToQueue queue jobId])
      { t with
        session := t.session.put (Document.idFor QueueEntry key)
          (Document.encode (QueueEntry.pending queue jobId))
        afterCommit := t.afterCommit ++ [.wake (t.routing.serving queue).signal] } := by
  rw [Session.put_eq_track]
  constructor
  · exact h.store
  · exact h.routing
  · exact h.optimistic
  · exact h.distinct.track _ _
  · exact h.deferred
  · intro id u hfound hid
    rw [Session.find?_track] at hfound
    split at hfound
    · rename_i hkey
      rw [hkey]
      exact List.mem_cons_self
    · exact List.mem_cons_of_mem _ (h.drawn id u hfound hid)
  · intro hnodup other job hmem
    obtain ⟨hnew, hrest⟩ := List.nodup_cons.mp hnodup
    rcases List.mem_append.mp hmem with hearlier | hlast
    · obtain ⟨hwake, id, hid, hfound⟩ := h.entries hrest other job hearlier
      have hne : id ≠ Document.idFor QueueEntry key := by
        rintro rfl
        exact hnew (h.drawn _ _ hfound rfl)
      refine ⟨List.mem_append_left _ hwake, id, hid, ?_⟩
      rw [Session.find?_track, if_neg hne]
      exact hfound
    · cases List.mem_singleton.mp hlast
      have hunseen : t.session.find? (Document.idFor QueueEntry key) = none := by
        cases hfound : t.session.find? (Document.idFor QueueEntry key) with
        | none => rfl
        | some u => exact absurd (h.drawn _ u hfound rfl) hnew
      refine ⟨List.mem_append_right _ ?_, Document.idFor QueueEntry key, rfl, ?_⟩
      · rw [h.routing]
        exact List.mem_cons_self
      · rw [Session.find?_track_self, hunseen]
        rfl

theorem Promises.enters (h : Promises c log done t) (hnodup : log.drawn.Nodup) {queue : String}
    {jobId : JobId} (hmem : .addToQueue queue jobId ∈ done) :
    ∃ id, id.collection = Document.collection QueueEntry ∧
      t.session.batch.Enters id (QueueEntry.pending queue jobId) := by
  obtain ⟨_, id, hid, hfound⟩ := h.entries hnodup queue jobId hmem
  refine ⟨id, hid, ?_⟩
  have hdeferred : (t.session.deferred.filter fun w => w.id = id) = [] := by
    refine List.filter_eq_nil_iff.mpr fun w hw hsame => h.deferred w hw ?_
    rw [of_decide_eq_true hsame]
    exact hid
  unfold Batch.Enters
  rw [Session.batch_eq, List.filter_append, Session.filter_documentWrites h.distinct, hfound,
    h.optimistic, hdeferred]
  rfl

theorem announces_commit (h : Promises c log done t) :
    (Step.commit.start t).Conforms (fun _ => Request.LeavesTokens)
      (fun last result => last.drawn.Nodup → ∀ value, result.1 = .ok value →
        ∀ queue jobId, .addToQueue queue jobId ∈ done →
          ∃ id, last.Announces c.store (c.routing.serving queue).signal id
            (QueueEntry.pending queue jobId)) log := by
  rw [Step.start_commit, Work.start_saveChanges]
  split
  · rename_i hempty
    have hbatch : t.session.batch = [] := List.isEmpty_iff.mp hempty
    refine (Step.announces_runAll t.afterCommit).bind fun last _ ⟨front, hlast, _⟩ => ?_
    intro hnodup _ _ queue jobId hmem
    rw [hlast] at hnodup
    obtain ⟨id, _, henters⟩ := h.enters (Log.nodup_drawn_of_append hnodup) hmem
    rw [hbatch] at henters
    cases henters
  · refine ⟨trivial, fun reply => ?_⟩
    cases reply with
    | error e => exact fun _ _ heq => nomatch heq
    | ok _ =>
        refine (Step.announces_runAll t.afterCommit).bind fun last _ ⟨front, hlast, hwakes⟩ => ?_
        intro hnodup _ _ queue jobId hmem
        rw [hlast] at hnodup
        have hbefore := Log.nodup_drawn_of_cons (Log.nodup_drawn_of_append hnodup)
        obtain ⟨id, hid, henters⟩ := h.enters hbefore hmem
        rw [h.store] at hlast
        exact ⟨id, hid, front, _, log, hlast, henters,
          hwakes _ (h.entries hbefore queue jobId hmem).1⟩

theorem promises_step (op : Operation) (hopen : log.accepted? = none)
    (h : Promises c log done t) :
    (op.step.start t).Conforms (fun _ => Request.LeavesTokens)
      (fun last result => last.accepted? = none ∧
        Promises c last (if result.1.isOk then done ++ [op] else done) result.2) log := by
  cases op with
  | addToQueue queue jobId =>
      change (Step.start (Step.addToQueue queue jobId) t).Conforms _ _ _
      rw [Step.start_addToQueue]
      exact ⟨trivial, fun key => ⟨rfl, h.added key queue jobId⟩⟩
  | edit e =>
      have hstable : ∀ log exchange, Promises c log done t → Promises c (exchange :: log) done t :=
        fun _ exchange h => h.cons exchange
      refine (((e.conforms_step t hopen).and_of_stable h hstable).weaken
        fun _ _ => leavesTokens_of_observes).mono
          fun last result ⟨⟨hopen, next, hnext, hends⟩, h⟩ => ⟨hopen, ?_⟩
      obtain ⟨result, t⟩ := result
      cases hnext
      rcases hends with ⟨failure, rfl, rfl⟩ | ⟨seen, now, _, hyields⟩
      · exact h
      · generalize houtcome : e.handling now seen = outcome at hyields
        cases hyields with
        | amended hamends =>
          refine h.edited hamends (fun w hw => ?_) _
          unfold Edit.handling Handling.revise at houtcome
          split at houtcome
          · rename_i hrevise
            cases houtcome
            obtain ⟨_, _, _, rfl⟩ := (Edit.succeeds_of_revise hrevise).2 w hw
            rfl
          · cases houtcome
            cases hw

/-- A transaction whose commit went well has announced every entry that was added to it. -/
theorem announces_program (plan : TransactionPlan) (c : Connection) :
    (plan.program c.transaction []).Conforms (fun _ => Request.LeavesTokens)
      (fun log settlement => log.drawn.Nodup → ∀ value, settlement.result = some (.ok value) →
        ∀ queue jobId, .addToQueue queue jobId ∈ settlement.done →
          ∃ id, log.Announces c.store (c.routing.serving queue).signal id
            (QueueEntry.pending queue jobId)) [] := by
  refine plan.conforms (fun log done t => log.accepted? = none ∧ Promises c log done t)
    (fun _ _ _ _ _ _ heq => nomatch heq) (fun _ _ _ h => (announces_commit h.2).mono ?_)
    (fun op _ _ _ _ h => promises_step op h.1 h.2) plan.all_true ⟨rfl, promises_start c⟩
  intro last result h hnodup value heq
  exact h hnodup value (Option.some.inj heq)

end TransactionPlan

end Jobyard
