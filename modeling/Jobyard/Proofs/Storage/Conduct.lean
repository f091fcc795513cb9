import Jobyard.Connection.Collection
import Jobyard.Connection.Server
import Jobyard.Proofs.Connection.Job
import Jobyard.Proofs.Queue.Task
import Jobyard.Proofs.Transaction.Proper

/-!
The conduct of everything that writes to a storage: transactions, connections, queues and reapers.
As long as they are shown proper bodies, they write proper bodies.
-/

namespace Jobyard

variable {store : StoreRef} {log : Log} {s next : Session} {id : DocId}

theorem Log.IsProper.of_cons {exchange : Exchange} (h : Log.IsProper store (exchange :: log)) :
    log.IsProper store :=
  fun other hmem => h other (List.mem_cons_of_mem _ hmem)

theorem keeps_of_observes {request : Request} (h : Work.Observes store log request) :
    Keeps store log request := by
  rintro batch rfl
  rcases h.2 with hnow | ⟨ids, hload⟩
  · cases hnow
  · cases hload

/-- A session that is proper as long as its store shows proper bodies. -/
def Session.Heeds (store : StoreRef) (log : Log) (s : Session) : Prop :=
  s.store = store ∧ (log.IsProper store → s.IsProper)

namespace Session

theorem heeds_empty (store : StoreRef) (optimistic : Bool) (log : Log) :
    (empty store optimistic).Heeds store log :=
  ⟨rfl, fun _ => isProper_empty store optimistic⟩

theorem Heeds.cons (h : s.Heeds store log) (exchange : Exchange) :
    s.Heeds store (exchange :: log) :=
  ⟨h.1, fun hlog => h.2 hlog.of_cons⟩

theorem Heeds.amend {t : Tracked} {writes : List Write} (h : s.Heeds store log)
    (hamends : s.Amends next id t writes) (ht : log.IsProper store → t.IsProper id)
    (hwrites : log.IsProper store → ∀ w ∈ writes, w.IsProper) : next.Heeds store log :=
  ⟨hamends.store.trans h.1, fun hlog => (h.2 hlog).amend hamends (ht hlog) (hwrites hlog)⟩

theorem Heeds.put {α : Type} [Document α] [Storable α] (h : s.Heeds store log)
    (hknown : Shape.Known α) (hid : id.collection = Document.collection α) {document : α}
    (hvalid : log.IsProper store → Storable.Valid document) :
    (s.put id (Document.encode document)).Heeds store log :=
  h.amend ((s.amends_self id).put _)
    (fun hlog => Tracked.isProper_hold _ (proper_encode hknown hid (hvalid hlog)))
    fun _ _ h => nomatch h

end Session

namespace Work

variable {α : Type}

theorem conforms_handled {f : Instant → Handling α} {work : Work α} (hwork : Handles id f work)
    (hopen : log.accepted? = none) (hs : s.Heeds store log) :
    (work.start s).Conforms (Keeps store)
      (fun log result => log.accepted? = none ∧ s.Heeds store log ∧
        ((∃ e, result = (.error e, s)) ∨
          ∃ seen now, (log.IsProper store → seen.IsProper id) ∧
            s.Yields id (f now seen) result)) log := by
  have hstable : ∀ log exchange, s.Heeds store log → s.Heeds store (exchange :: log) :=
    fun _ exchange h => h.cons exchange
  have hconforms := ((hwork s log hopen).weaken fun _ _ => keeps_of_observes).and_of_stable
    (hs.1 ▸ hs) (hs.1 ▸ hstable)
  rw [hs.1] at hconforms
  refine hconforms.mono fun log result ⟨⟨hopen, hends⟩, hs⟩ => ⟨hopen, hs, hends.imp_right ?_⟩
  rintro ⟨seen, now, hseen, hyields⟩
  exact ⟨seen, now, fun hlog => (hs.2 hlog).glimpse (hs.1 ▸ hlog) hseen, hyields⟩

theorem conforms_saved (hs : s.Heeds store log) :
    (saveChanges.start s).Conforms (Keeps store) (fun _ _ => True) log := by
  rw [start_saveChanges]
  split
  · trivial
  · refine ⟨fun batch heq hlog => ?_, fun reply => ?_⟩
    · cases heq
      exact (hs.2 hlog).batch
    · cases reply <;> trivial

theorem conforms_load [Document α] [Storable α] (hknown : Shape.Known α)
    (hid : id.collection = Document.collection α) (hopen : log.accepted? = none)
    (hs : s.Heeds store log) :
    (start (load α id) s).Conforms (Keeps store)
      (fun log result => result.2.Heeds store log ∧ ∀ document, result.1 = .ok (some document) →
        log.IsProper store → Storable.Valid document) log := by
  refine (conforms_handled (handles_load α id) hopen hs).mono
    fun log result ⟨_, hs, hends⟩ => ?_
  rcases hends with ⟨e, rfl⟩ | ⟨seen, now, hseen, hyields⟩
  · exact ⟨hs, fun _ heq => nomatch heq⟩
  · generalize houtcome : Handling.load α id seen = outcome at hyields
    cases hyields with
    | amended hnext =>
      obtain ⟨hdecode, hrest⟩ := Prod.mk.inj houtcome
      obtain ⟨rfl, rfl⟩ := Prod.mk.inj hrest
      refine ⟨hs.amend hnext hseen fun _ _ h => (nomatch h), fun document heq hlog => ?_⟩
      obtain ⟨body, hbody, hread⟩ := Tracked.body_of_decode (hdecode.trans heq)
      exact (hseen hlog body hbody).valid hknown hid hread

theorem conforms_loadOrBlank [FindOrCreate α] [Storable α] (hknown : Shape.Known α)
    (hid : id.collection = Document.collection α)
    (hblank : Storable.Valid (FindOrCreate.blank : α)) (hopen : log.accepted? = none)
    (hs : s.Heeds store log) :
    (start (loadOrBlank α id) s).Conforms (Keeps store)
      (fun log result => result.2.Heeds store log) log := by
  refine (conforms_handled (handles_loadOrBlank α id) hopen hs).mono
    fun log result ⟨_, hs, hends⟩ => ?_
  rcases hends with ⟨e, rfl⟩ | ⟨seen, now, hseen, hyields⟩
  · exact hs
  · generalize houtcome : Handling.loadOrBlank α id seen = outcome at hyields
    cases hyields with
    | amended hnext =>
      unfold Handling.loadOrBlank at houtcome
      split at houtcome
      · rename_i hfill
        cases houtcome
        exact hs.amend hnext (fun hlog => ((hseen hlog).fill hknown hid hblank hfill).2)
          fun _ _ h => nomatch h
      · cases houtcome
        exact hs.amend hnext hseen fun _ _ h => nomatch h

theorem start_gather_observed (α : Type) [Document α] (found : List Stored) (s : Session) :
    ∃ result, ∃ seen : List Stored,
      start (gather α found) s = .done (result, seen.foldl Session.observe s) ∧
        ∀ d ∈ seen, d ∈ found := by
  induction found generalizing s with
  | nil => exact ⟨.ok [], [], rfl, fun _ h => nomatch h⟩
  | cons d rest ih =>
      unfold gather
      rw [start_bind, start_modify, Interaction.done_bind]
      simp only
      rw [start_bind, start_view, Interaction.done_bind]
      cases (((s.observe d).find? d.id).elim (.ok none) (Tracked.decode α d.id) :
          Except StoreError (Option α)) with
      | error e =>
          refine ⟨.error e, [d], rfl, fun other hother => ?_⟩
          rw [List.mem_singleton.mp hother]
          exact List.mem_cons_self
      | ok seen =>
          obtain ⟨result, observed, hstart, hmem⟩ := ih (s.observe d)
          simp only
          rw [start_bind, hstart, Interaction.done_bind]
          have hall : ∀ other ∈ d :: observed, other ∈ d :: rest :=
            List.forall_mem_cons.mpr ⟨List.mem_cons_self, fun other hother =>
              List.mem_cons_of_mem d (hmem other hother)⟩
          cases result with
          | error e => exact ⟨.error e, d :: observed, rfl, hall⟩
          | ok others =>
              cases seen with
              | none => exact ⟨_, d :: observed, rfl, hall⟩
              | some document => exact ⟨_, d :: observed, rfl, hall⟩

end Work

namespace Session

theorem Heeds.observe (h : s.Heeds store log) {seen : List Stored}
    (hproper : log.IsProper store → ∀ d ∈ seen, Proper d.id d.body) :
    (seen.foldl observe s).Heeds store log := by
  induction seen generalizing s with
  | nil => exact h
  | cons d rest ih =>
      refine ih ?_ fun hlog other hother => hproper hlog other (List.mem_cons_of_mem d hother)
      unfold Session.observe
      split
      · exact h
      · exact h.amend (s.amends_track d.id _)
          (fun hlog => Tracked.isProper_ofStored (hproper hlog d List.mem_cons_self))
          fun _ _ h => nomatch h

theorem Heeds.delete (h : s.Heeds store log) (id : DocId) : (s.delete id).Heeds store log := by
  refine h.amend (s.amends_self id).delete (fun hlog => ?_) fun _ _ h => nomatch h
  intro body hbody
  cases hfound : s.find? id with
  | none =>
      rw [hfound] at hbody
      cases hbody
  | some t =>
      rw [hfound] at hbody
      exact (h.2 hlog).tracked id t hfound body hbody

theorem Heeds.deleteAll {α : Type} (h : s.Heeds store log) (entries : List (DocId × α)) :
    (entries.foldl (fun s entry => s.delete entry.1) s).Heeds store log := by
  induction entries generalizing s with
  | nil => exact h
  | cons first rest ih => exact ih (h.delete first.1)

end Session

def Operation.IsFinite : Operation → Prop
  | edit e => e.IsFinite
  | addToQueue .. => True

namespace Step

variable {t : Transaction}

theorem conforms_edit {e : Edit} (hfinite : e.IsFinite) (hopen : log.accepted? = none)
    (ht : t.session.Heeds store log) :
    (e.step.start t).Conforms (Keeps store)
      (fun log result => log.accepted? = none ∧ result.2.session.Heeds store log) log := by
  obtain ⟨work, hstep, hhandles⟩ := e.handles
  rw [hstep]
  change (work.start t.session >>= fun result =>
    Interaction.done (result.1, { t with session := result.2 })).Conforms _ _ _
  refine (Work.conforms_handled hhandles hopen ht).bind
    fun log result ⟨hopen, ht, hends⟩ => ⟨hopen, ?_⟩
  rcases hends with ⟨failure, rfl⟩ | ⟨seen, now, hseen, hyields⟩
  · exact ht
  · generalize houtcome : e.handling now seen = outcome at hyields
    cases hyields with
    | amended hnext =>
      unfold Edit.handling Handling.revise at houtcome
      split at houtcome
      · rename_i hrevise
        cases houtcome
        exact ht.amend hnext (fun hlog => (e.isProper_revise hfinite (hseen hlog) hrevise).1)
          fun hlog => (e.isProper_revise hfinite (hseen hlog) hrevise).2
      · cases houtcome
        exact ht.amend hnext hseen fun _ _ h => nomatch h

theorem conforms_operation {op : Operation} (hfinite : op.IsFinite) (hopen : log.accepted? = none)
    (ht : t.session.Heeds store log) :
    (op.step.start t).Conforms (Keeps store)
      (fun log result => log.accepted? = none ∧ result.2.session.Heeds store log) log := by
  cases op with
  | edit e => exact conforms_edit hfinite hopen ht
  | addToQueue queue jobId =>
      change (start (addToQueue queue jobId) t).Conforms _ _ _
      rw [start_addToQueue]
      refine ⟨fun _ heq => (nomatch heq), fun key => ⟨rfl, ?_⟩⟩
      exact (ht.cons _).put Shape.known_queueEntry rfl fun _ => trivial

theorem conforms_commit (ht : t.session.Heeds store log) :
    (commit.start t).Conforms (Keeps store) (fun _ _ => True) log :=
  conforms_commit_of_saved (fun _ _ _ heq => nomatch heq) (fun _ _ _ heq => nomatch heq)
    (Work.conforms_saved ht)

end Step

theorem TransactionPlan.conforms_keeps {plan : TransactionPlan}
    (hfinite : plan.All Operation.IsFinite) (c : Connection) :
    (plan.program c.transaction []).Conforms (Keeps c.store) (fun _ _ => True) [] :=
  plan.conforms (fun log _ t => log.accepted? = none ∧ t.session.Heeds c.store log)
    (fun _ _ _ _ => trivial) (fun _ _ _ ht => Step.conforms_commit ht.2)
    (fun _ hop _ _ _ ht => Step.conforms_operation hop ht.1 ht.2) hfinite
    ⟨rfl, Session.heeds_empty c.store true []⟩

section Queues

variable {request : Request}

theorem JobQueue.keeps_of_asks {q : JobQueue} (h : q.Asks log request) :
    Keeps q.store log request := by
  rintro batch rfl hlog w hw
  obtain ⟨_, _, id, d, entry, now, hsees, rfl⟩ := h
  cases List.mem_singleton.mp hw
  obtain ⟨exchange, hmem, hfinds⟩ := hsees.found
  exact proper_encode Shape.known_queueEntry ((hlog exchange hmem).found _ id hfinds) trivial

theorem JobQueue.conforms_enqueue_keeps (q : JobQueue) (queue : String) (jobId : JobId) :
    (q.enqueue queue jobId).run.Conforms (Keeps q.store) (fun _ _ => True) [] := by
  have hstart : (Work.start (do
      enqueueIn queue jobId
      Work.saveChanges) (Session.empty q.store true)).Conforms (Keeps q.store)
        (fun _ _ => True) [] := by
    rw [Work.start_bind]
    refine ⟨fun _ heq => (nomatch heq), fun key => ?_⟩
    exact Work.conforms_saved ((Session.heeds_empty q.store true _).put Shape.known_queueEntry rfl
      fun _ => trivial)
  have hwork : (Work.alone q.store (do
      enqueueIn queue jobId
      Work.saveChanges)).run.Conforms (Keeps q.store) (fun _ _ => True) [] :=
    hstart.bind fun _ _ _ => trivial
  refine hwork.bind_action (fun _ _ _ => ?_) fun _ _ _ => trivial
  exact ⟨fun _ heq => (nomatch heq), fun _ => trivial⟩

theorem Lease.keeps_of_resolves {l : Lease} {write : Stored → QueueEntry → Write}
    (hwrite : ∀ d entry, (write d entry).IsProper) (h : l.Resolves write log request) :
    Keeps l.store log request := by
  rintro batch rfl _ w hw
  obtain ⟨_, d, entry, _, rfl⟩ := h
  cases List.mem_singleton.mp hw
  exact hwrite d entry

theorem Lease.isProper_returned {l : Lease}
    (hentry : l.entryId.collection = Document.collection QueueEntry) (d : Stored)
    (entry : QueueEntry) : (l.returned d entry).IsProper :=
  proper_encode Shape.known_queueEntry hentry trivial

end Queues

namespace Connection

variable (c : Connection)

theorem conforms_alone {α : Type} {work : Work α}
    (hwork : (work.start (Session.empty c.store true)).Conforms (Keeps c.store)
      (fun _ _ => True) log) :
    (c.alone work).run.Conforms (Keeps c.store) (fun _ _ => True) log :=
  hwork.bind fun _ _ _ => trivial

theorem conforms_setFields (key : String) (fields : List (String × String)) :
    (c.setFields key fields).run.Conforms (Keeps c.store) (fun _ _ => True) [] := by
  have hsteps : (Step.start (do
      Step.setFields key fields
      Step.commit) c.transaction).Conforms (Keeps c.store) (fun _ _ => True) [] := by
    rw [Step.start_bind]
    refine (Step.conforms_edit (e := .setFields key fields) trivial rfl
      (Session.heeds_empty c.store true [])).bind fun log result ⟨_, ht⟩ => ?_
    obtain ⟨result, t⟩ := result
    cases result with
    | error e => trivial
    | ok _ => exact Step.conforms_commit ht
  exact hsteps.bind fun _ _ _ => trivial

theorem conforms_createExpiredJob (invocation : InvocationData) (parameters : Dict String String)
    (createdAt : Instant) (length : Duration) :
    (c.createExpiredJob invocation parameters createdAt length).run.Conforms (Keeps c.store)
      (fun _ _ => True) [] := by
  rw [run_createExpiredJob]
  refine ⟨fun _ heq => (nomatch heq), fun key => ⟨fun batch heq _ w hw => ?_, fun _ => trivial⟩⟩
  cases heq
  cases List.mem_singleton.mp hw
  exact proper_encode Shape.known_job rfl trivial

theorem conforms_setJobParameter (job : JobId) (name value : String) :
    (c.setJobParameter job name value).run.Conforms (Keeps c.store) (fun _ _ => True) [] := by
  rw [run_setJobParameter]
  refine ⟨fun _ heq => (nomatch heq), fun reply => ?_⟩
  match reply with
  | .error e => trivial
  | .ok [] => trivial
  | .ok (none :: _) => trivial
  | .ok (some d :: _) =>
      simp only
      cases (Document.decode? d.body : Option Job) with
      | none => trivial
      | some j =>
          refine ⟨fun batch heq _ w hw => ?_, fun _ => trivial⟩
          cases heq
          cases List.mem_singleton.mp hw
          exact proper_encode Shape.known_job rfl trivial

section Servers

open Work

theorem start_deleteAll {α : Type} (entries : List (DocId × α)) (s : Session) :
    start (forIn entries PUnit.unit fun entry _ => do
      Work.delete entry.1
      pure (ForInStep.yield PUnit.unit)) s =
        .done (.ok PUnit.unit, entries.foldl (fun s entry => s.delete entry.1) s) := by
  induction entries generalizing s with
  | nil => rfl
  | cons first rest ih =>
      rw [List.forIn_cons]
      exact ih (s.delete first.1)

theorem conforms_then_saved {β : Type} (hs : s.Heeds store log) (value : β) :
    (start (do
      saveChanges
      pure value) s).Conforms (Keeps store) (fun _ _ => True) log := by
  rw [start_bind]
  refine (conforms_saved hs).bind fun log result _ => ?_
  obtain ⟨result, next⟩ := result
  cases result <;> trivial

theorem conforms_announceServer (server : String) {data : ServerData}
    (hworkers : data.workerCount ≤ ServerData.workerLimit) :
    (c.announceServer server data).run.Conforms (Keeps c.store) (fun _ _ => True) [] := by
  apply c.conforms_alone
  rw [start_bind, start_discard, Interaction.bind_bind]
  refine (conforms_loadOrBlank Shape.known_server rfl (Nat.zero_le _) rfl
    (Session.heeds_empty c.store true [])).bind fun log result hs => ?_
  obtain ⟨result, next⟩ := result
  cases result with
  | error e => trivial
  | ok _ =>
      change (start (do
        let now ← Work.now
        save (Document.idFor Server server) (Server.mk now data)
        saveChanges) next).Conforms _ _ _
      rw [start_bind]
      refine ⟨fun _ heq => (nomatch heq), fun now => ?_⟩
      exact conforms_saved ((hs.cons ⟨.now, now⟩).put Shape.known_server rfl fun _ => hworkers)

theorem conforms_heartbeat (server : String) :
    (c.heartbeat server).run.Conforms (Keeps c.store) (fun _ _ => True) [] := by
  apply c.conforms_alone
  rw [start_bind]
  refine (conforms_load Shape.known_server rfl rfl (Session.heeds_empty c.store true [])).bind
    fun log result ⟨hs, hvalid⟩ => ?_
  obtain ⟨result, next⟩ := result
  match result with
  | .error e => trivial
  | .ok none => trivial
  | .ok (some s) =>
      change (start (do
        let now ← Work.now
        save (Document.idFor Server server) (Server.mk now s.data)
        saveChanges
        pure true) next).Conforms _ _ _
      rw [start_bind]
      refine ⟨fun _ heq => (nomatch heq), fun now => ?_⟩
      have hput : (next.put (Document.idFor Server server)
          (Document.encode (Server.mk now s.data))).Heeds c.store (⟨.now, now⟩ :: log) :=
        (hs.cons _).put Shape.known_server rfl fun hlog => hvalid s rfl hlog.of_cons
      change (start (saveChanges >>= fun _ => pure true) (next.put (Document.idFor Server server)
        (Document.encode (Server.mk now s.data)))).Conforms _ _ _
      exact conforms_then_saved hput true

theorem conforms_removeServer (server : String) :
    (c.removeServer server).run.Conforms (Keeps c.store) (fun _ _ => True) [] := by
  apply c.conforms_alone
  rw [start_bind]
  exact conforms_saved ((Session.heeds_empty c.store true []).delete _)

theorem conforms_removeTimedOutServers (timeout : Duration) :
    (c.removeTimedOutServers timeout).run.Conforms (Keeps c.store) (fun _ _ => True) [] := by
  refine ⟨fun _ heq => (nomatch heq), fun now => ?_⟩
  apply c.conforms_alone
  rw [start_bind]
  unfold query
  rw [start_bind, start_askStore]
  refine ⟨fun _ heq => (nomatch heq), fun reply => ?_⟩
  cases reply with
  | error e => trivial
  | ok found =>
      let log : Log := [⟨.store c.store (.query (Query.of Server)), .ok found⟩, ⟨.now, now⟩]
      obtain ⟨result, seen, hgather, hseen⟩ :=
        start_gather_observed Server found (Session.empty c.store true)
      have hobserved : (seen.foldl Session.observe (Session.empty c.store true)).Heeds c.store
          log := (Session.heeds_empty c.store true log).observe fun hlog d hd =>
        (hlog _ List.mem_cons_self).queried _ _ rfl d (hseen d hd)
      change (start (gather Server found) _ >>= _).Conforms _ _ _
      rw [hgather, Interaction.done_bind]
      cases result with
      | error e => trivial
      | ok servers =>
          simp only
          rw [start_bind, start_deleteAll, Interaction.done_bind]
          exact conforms_then_saved (hobserved.deleteAll _) _

end Servers

end Connection
end Jobyard
