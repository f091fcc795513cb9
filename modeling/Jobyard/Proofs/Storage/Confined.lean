import Jobyard.Proofs.Session.Dismissal
import Jobyard.Proofs.Storage.Readable

/-!
Where a storage writes. Whatever it is told, a task writes the documents that it names, documents
with fresh texts for keys, and documents that its store has shown to it. So it stays within any
places that have all of these.
-/

namespace Jobyard

/-- What a store shows is within places, and so are the documents that a fresh text may name. -/
structure Exchange.IsWithin (places : DocId → Prop) (store : StoreRef) (exchange : Exchange) :
    Prop where
  loaded : ∀ id d, exchange.Loads store id d → places id
  found : ∀ collection id, exchange.Finds store collection id → places id
  drawn : ∀ text, exchange = ⟨.freshText, text⟩ →
    places (Document.idFor Job text) ∧ places (Document.idFor QueueEntry text)

def Log.IsWithin (places : DocId → Prop) (store : StoreRef) (log : Log) : Prop :=
  ∀ exchange ∈ log, exchange.IsWithin places store

/-- The requests of programs that stay within places: as long as they hear of nothing else, they
write nothing else. -/
def WritesWithin (places : DocId → Prop) (store : StoreRef) (log : Log) (request : Request) :
    Prop :=
  ∀ batch, request = .store store (.commit batch) → log.IsWithin places store →
    ∀ w ∈ batch, places w.id

variable {places : DocId → Prop} {store : StoreRef} {log : Log} {request : Request}
  {s next : Session} {id : DocId} {t : Tracked} {writes : List Write}

theorem Log.IsWithin.of_cons {exchange : Exchange}
    (h : Log.IsWithin places store (exchange :: log)) : log.IsWithin places store :=
  fun other hmem => h other (List.mem_cons_of_mem _ hmem)

theorem writesWithin_of_observes (h : Work.Observes store log request) :
    WritesWithin places store log request := by
  rintro batch rfl
  rcases h.2 with hnow | ⟨ids, hload⟩
  · cases hnow
  · cases hload

namespace Session

structure IsWithin (places : DocId → Prop) (s : Session) : Prop where
  distinct : s.Distinct
  tracked : ∀ id t, s.find? id = some t → places id
  deferred : ∀ w ∈ s.deferred, places w.id

def StaysWithin (places : DocId → Prop) (store : StoreRef) (log : Log) (s : Session) : Prop :=
  s.store = store ∧ (log.IsWithin places store → s.IsWithin places)

theorem IsWithin.amend (h : s.IsWithin places) (hamends : s.Amends next id t writes)
    (hid : places id) (hwrites : ∀ w ∈ writes, places w.id) : next.IsWithin places where
  distinct := hamends.distinct h.distinct
  tracked other u hfound := by
    by_cases hother : other = id
    · exact hother ▸ hid
    · exact h.tracked other u ((hamends.others other hother).symm.trans hfound)
  deferred w hw := by
    rw [hamends.deferred] at hw
    exact (List.mem_append.mp hw).elim (h.deferred w) (hwrites w)

theorem IsWithin.batch (h : s.IsWithin places) : ∀ w ∈ s.batch, places w.id := by
  intro w hw
  rw [batch_eq] at hw
  rcases List.mem_append.mp hw with hdocument | hdeferred
  · obtain ⟨t, hfound, _⟩ := (mem_documentWrites_iff h.distinct).mp hdocument
    exact h.tracked w.id t hfound
  · exact h.deferred w hdeferred

theorem staysWithin_empty (store : StoreRef) (log : Log) :
    (empty store true).StaysWithin places store log :=
  ⟨rfl, fun _ => ⟨distinct_empty store true, fun _ _ h => (nomatch h), fun _ h => nomatch h⟩⟩

theorem StaysWithin.cons (h : s.StaysWithin places store log) (exchange : Exchange) :
    s.StaysWithin places store (exchange :: log) :=
  ⟨h.1, fun hlog => h.2 hlog.of_cons⟩

theorem StaysWithin.amend (h : s.StaysWithin places store log)
    (hamends : s.Amends next id t writes) (hid : log.IsWithin places store → places id)
    (hwrites : log.IsWithin places store → ∀ w ∈ writes, places w.id) :
    next.StaysWithin places store log :=
  ⟨hamends.store.trans h.1, fun hlog => (h.2 hlog).amend hamends (hid hlog) (hwrites hlog)⟩

theorem StaysWithin.put (h : s.StaysWithin places store log)
    (hid : log.IsWithin places store → places id) (body : Json) :
    (s.put id body).StaysWithin places store log :=
  h.amend ((s.amends_self id).put body) hid fun _ _ h => nomatch h

theorem StaysWithin.delete (h : s.StaysWithin places store log)
    (hid : log.IsWithin places store → places id) :
    (s.delete id).StaysWithin places store log :=
  h.amend (s.amends_self id).delete hid fun _ _ h => nomatch h

theorem StaysWithin.observe (h : s.StaysWithin places store log) {seen : List Stored}
    (hseen : log.IsWithin places store → ∀ d ∈ seen, places d.id) :
    (seen.foldl observe s).StaysWithin places store log := by
  induction seen generalizing s with
  | nil => exact h
  | cons d rest ih =>
      refine ih ?_ fun hlog other hother => hseen hlog other (List.mem_cons_of_mem d hother)
      unfold Session.observe
      split
      · exact h
      · exact h.amend (s.amends_track d.id _) (fun hlog => hseen hlog d List.mem_cons_self)
          fun _ _ h => nomatch h

theorem StaysWithin.deleteAll {α : Type} (h : s.StaysWithin places store log)
    {entries : List (DocId × α)}
    (hentries : log.IsWithin places store → ∀ entry ∈ entries, places entry.1) :
    (entries.foldl (fun s entry => s.delete entry.1) s).StaysWithin places store log := by
  induction entries generalizing s with
  | nil => exact h
  | cons first rest ih =>
      exact ih (h.delete fun hlog => hentries hlog first List.mem_cons_self)
        fun hlog entry hentry => hentries hlog entry (List.mem_cons_of_mem first hentry)

end Session

namespace Work

variable {α : Type}

theorem conforms_handled_within {f : Instant → Handling α} {work : Work α}
    (hwork : Handles id f work) (hopen : log.accepted? = none)
    (hs : s.StaysWithin places store log) (hid : places id)
    (hwrites : ∀ now seen, ∀ w ∈ (f now seen).2.2, w.id = id) :
    (work.start s).Conforms (WritesWithin places store)
      (fun log result => log.accepted? = none ∧ result.2.StaysWithin places store log) log := by
  have hstable : ∀ log exchange, s.StaysWithin places store log →
      s.StaysWithin places store (exchange :: log) := fun _ exchange h => h.cons exchange
  have hconforms := (hwork s log hopen).and_of_stable hs hstable
  rw [hs.1] at hconforms
  refine (hconforms.weaken fun _ _ => writesWithin_of_observes).mono
    fun log result ⟨⟨hopen, hends⟩, hs⟩ => ⟨hopen, ?_⟩
  rcases hends with ⟨e, rfl⟩ | ⟨seen, now, _, hyields⟩
  · exact hs
  · have hdeferred := hwrites now seen
    generalize f now seen = outcome at hyields hdeferred
    cases hyields with
    | amended hnext => exact hs.amend hnext (fun _ => hid) fun _ w hw => hdeferred w hw ▸ hid

theorem conforms_load_within (α : Type) [Document α] (hopen : log.accepted? = none)
    (hs : s.StaysWithin places store log) (hid : places id) :
    (start (load α id) s).Conforms (WritesWithin places store)
      (fun log result => log.accepted? = none ∧ result.2.StaysWithin places store log) log :=
  conforms_handled_within (handles_load α id) hopen hs hid fun _ _ _ h => nomatch h

theorem conforms_loadOrBlank_within (α : Type) [FindOrCreate α] (hopen : log.accepted? = none)
    (hs : s.StaysWithin places store log) (hid : places id) :
    (start (loadOrBlank α id) s).Conforms (WritesWithin places store)
      (fun log result => log.accepted? = none ∧ result.2.StaysWithin places store log) log := by
  refine conforms_handled_within (handles_loadOrBlank α id) hopen hs hid fun _ seen w hw => ?_
  unfold Handling.loadOrBlank at hw
  split at hw <;> cases hw

theorem conforms_saved_within (hs : s.StaysWithin places store log) :
    (start saveChanges s).Conforms (WritesWithin places store) (fun _ _ => True) log := by
  rw [start_saveChanges]
  split
  · trivial
  · refine ⟨fun batch heq hlog => ?_, fun reply => ?_⟩
    · cases heq
      exact (hs.2 hlog).batch
    · cases reply <;> trivial

theorem conforms_then_saved_within {β : Type} (hs : s.StaysWithin places store log) (value : β) :
    (start (do
      saveChanges
      pure value) s).Conforms (WritesWithin places store) (fun _ _ => True) log := by
  rw [start_bind]
  refine (conforms_saved_within hs).bind fun log result _ => ?_
  obtain ⟨result, next⟩ := result
  cases result <;> trivial

end Work

def Operation.IsWithin (places : DocId → Prop) : Operation → Prop
  | edit e => places e.id
  | addToQueue .. => True

namespace Step

variable {transaction : Transaction}

theorem conforms_operation_within {op : Operation} (hop : op.IsWithin places)
    (hopen : log.accepted? = none) (h : transaction.session.StaysWithin places store log) :
    (op.step.start transaction).Conforms (WritesWithin places store)
      (fun log result => log.accepted? = none ∧
        result.2.session.StaysWithin places store log) log := by
  cases op with
  | addToQueue queue jobId =>
      change (start (addToQueue queue jobId) transaction).Conforms _ _ _
      rw [start_addToQueue]
      refine ⟨fun _ heq => (nomatch heq), fun key => ⟨rfl, (h.cons _).put (fun hlog => ?_) _⟩⟩
      exact ((hlog _ List.mem_cons_self).drawn key rfl).2
  | edit e =>
      obtain ⟨work, hstep, hhandles⟩ := e.handles
      change (e.step.start transaction).Conforms _ _ _
      rw [hstep]
      change (work.start transaction.session >>= fun result =>
        Interaction.done (result.1, { transaction with session := result.2 })).Conforms _ _ _
      refine (Work.conforms_handled_within hhandles hopen h hop fun now seen w hw => ?_).bind
        fun _ _ hends => hends
      unfold Edit.handling Handling.revise at hw
      split at hw
      · rename_i hrevise
        obtain ⟨_, _, _, rfl⟩ := (Edit.succeeds_of_revise hrevise).2 w hw
        rfl
      · cases hw

theorem conforms_commit_within (h : transaction.session.StaysWithin places store log) :
    (commit.start transaction).Conforms (WritesWithin places store) (fun _ _ => True) log :=
  conforms_commit_of_saved (fun _ _ _ heq => nomatch heq) (fun _ _ _ heq => nomatch heq)
    (Work.conforms_saved_within h)

end Step

theorem TransactionPlan.conforms_within {plan : TransactionPlan}
    (hplan : plan.All (Operation.IsWithin places)) (c : Connection) :
    (plan.program c.transaction []).Conforms (WritesWithin places c.store)
      (fun _ _ => True) [] :=
  plan.conforms (fun log _ t => log.accepted? = none ∧
      t.session.StaysWithin places c.store log)
    (fun _ _ _ _ => trivial) (fun _ _ _ h => Step.conforms_commit_within h.2)
    (fun _ hop _ _ _ h => Step.conforms_operation_within hop h.1 h.2) hplan
    ⟨rfl, Session.staysWithin_empty c.store []⟩

section Queues

theorem writesWithin_of_produces {entry : QueueEntry} (h : Produces store [entry] log request) :
    WritesWithin places store log request := by
  rintro batch rfl hlog w hw
  obtain ⟨_, _, hlength, hbatch⟩ := h
  obtain ⟨key, hkey⟩ := List.length_eq_one_iff.mp hlength
  rw [hbatch (hkey ▸ List.pairwise_singleton _ key), hkey] at hw
  have hdrawn : key ∈ log.drawn := hkey ▸ List.mem_singleton_self key
  cases List.mem_singleton.mp hw
  exact ((hlog _ (Log.mem_drawn_iff.mp hdrawn)).drawn key rfl).2

theorem JobQueue.writesWithin_of_asks {q : JobQueue} (h : q.Asks log request) :
    WritesWithin places q.store log request := by
  rintro batch rfl hlog w hw
  obtain ⟨_, _, id, d, entry, now, hsees, rfl⟩ := h
  cases List.mem_singleton.mp hw
  obtain ⟨exchange, hmem, hfinds⟩ := hsees.found
  exact (hlog exchange hmem).found _ id hfinds

theorem Lease.writesWithin_of_resolves {l : Lease} {write : Stored → QueueEntry → Write}
    (hwrite : ∀ d entry, (write d entry).id = l.entryId) (h : l.Resolves write log request) :
    WritesWithin places l.store log request := by
  rintro batch rfl hlog w hw
  obtain ⟨_, d, entry, howns, rfl⟩ := h
  cases List.mem_singleton.mp hw
  obtain ⟨exchange, hmem, hloads⟩ := howns.loaded
  rw [hwrite d entry]
  exact (hlog exchange hmem).loaded _ d hloads

end Queues

namespace Connection

variable (c : Connection)

theorem conforms_alone_within {α : Type} {work : Work α}
    (hwork : (work.start (Session.empty c.store true)).Conforms (WritesWithin places c.store)
      (fun _ _ => True) log) :
    (c.alone work).run.Conforms (WritesWithin places c.store) (fun _ _ => True) log :=
  hwork.bind fun _ _ _ => trivial

theorem conforms_createExpiredJob_within (invocation : InvocationData)
    (parameters : Dict String String) (createdAt : Instant) (length : Duration) :
    (c.createExpiredJob invocation parameters createdAt length).run.Conforms
      (WritesWithin places c.store) (fun _ _ => True) [] := by
  rw [run_createExpiredJob]
  refine ⟨fun _ heq => (nomatch heq), fun key =>
    ⟨fun batch heq hlog w hw => ?_, fun _ => trivial⟩⟩
  cases heq
  cases List.mem_singleton.mp hw
  exact ((hlog _ List.mem_cons_self).drawn key rfl).1

theorem conforms_setJobParameter_within {job : JobId} (hjob : places (Step.jobDocument job))
    (name value : String) :
    (c.setJobParameter job name value).run.Conforms (WritesWithin places c.store)
      (fun _ _ => True) [] := by
  rw [run_setJobParameter]
  refine ⟨fun _ heq => (nomatch heq), fun reply => ?_⟩
  match reply with
  | .error e => trivial
  | .ok [] => trivial
  | .ok (none :: _) => trivial
  | .ok (some d :: _) =>
      simp only
      cases (Document.decode? d.body : Option Job) with
      | none => trivial
      | some j =>
          refine ⟨fun batch heq _ w hw => ?_, fun _ => trivial⟩
          cases heq
          cases List.mem_singleton.mp hw
          exact hjob

theorem conforms_setFields_within {key : String} (hkey : places (Document.idFor FieldMap key))
    (fields : List (String × String)) :
    (c.setFields key fields).run.Conforms (WritesWithin places c.store)
      (fun _ _ => True) [] := by
  have hsteps : (Step.start (do
      Step.setFields key fields
      Step.commit) c.transaction).Conforms (WritesWithin places c.store)
        (fun _ _ => True) [] := by
    rw [Step.start_bind]
    have hop : (Operation.edit (.setFields key fields)).IsWithin places := hkey
    refine (Step.conforms_operation_within hop rfl
      (Session.staysWithin_empty c.store [])).bind fun log result ⟨_, h⟩ => ?_
    obtain ⟨result, t⟩ := result
    cases result with
    | error e => trivial
    | ok _ => exact Step.conforms_commit_within h
  exact hsteps.bind fun _ _ _ => trivial

section Servers

open Work

variable {server : String}

theorem conforms_announceServer_within (hserver : places (Document.idFor Server server))
    (data : ServerData) :
    (c.announceServer server data).run.Conforms (WritesWithin places c.store)
      (fun _ _ => True) [] := by
  apply c.conforms_alone_within
  rw [start_bind, start_discard, Interaction.bind_bind]
  refine (conforms_loadOrBlank_within Server rfl (Session.staysWithin_empty c.store [])
    hserver).bind fun log result ⟨_, hs⟩ => ?_
  obtain ⟨result, next⟩ := result
  cases result with
  | error e => trivial
  | ok _ =>
      change (start (do
        let now ← Work.now
        save (Document.idFor Server server) (Server.mk now data)
        saveChanges) next).Conforms _ _ _
      rw [start_bind]
      refine ⟨fun _ heq => (nomatch heq), fun now => ?_⟩
      exact conforms_saved_within ((hs.cons ⟨.now, now⟩).put (fun _ => hserver) _)

theorem conforms_heartbeat_within (hserver : places (Document.idFor Server server)) :
    (c.heartbeat server).run.Conforms (WritesWithin places c.store) (fun _ _ => True) [] := by
  apply c.conforms_alone_within
  rw [start_bind]
  refine (conforms_load_within Server rfl (Session.staysWithin_empty c.store [])
    hserver).bind fun log result ⟨_, hs⟩ => ?_
  obtain ⟨result, next⟩ := result
  match result with
  | .error e => trivial
  | .ok none => trivial
  | .ok (some s) =>
      change (start (do
        let now ← Work.now
        save (Document.idFor Server server) (Server.mk now s.data)
        saveChanges
        pure true) next).Conforms _ _ _
      rw [start_bind]
      refine ⟨fun _ heq => (nomatch heq), fun now => ?_⟩
      change (start (saveChanges >>= fun _ => pure true) (next.put (Document.idFor Server server)
        (Document.encode (Server.mk now s.data)))).Conforms _ _ _
      exact conforms_then_saved_within ((hs.cons ⟨.now, now⟩).put (fun _ => hserver) _) true

theorem conforms_removeServer_within (hserver : places (Document.idFor Server server)) :
    (c.removeServer server).run.Conforms (WritesWithin places c.store) (fun _ _ => True) [] := by
  apply c.conforms_alone_within
  rw [start_bind]
  exact conforms_saved_within ((Session.staysWithin_empty c.store []).delete fun _ => hserver)

theorem conforms_removeTimedOutServers_within (timeout : Duration) :
    (c.removeTimedOutServers timeout).run.Conforms (WritesWithin places c.store)
      (fun _ _ => True) [] := by
  refine ⟨fun _ heq => (nomatch heq), fun now => ?_⟩
  apply c.conforms_alone_within
  rw [start_bind]
  unfold query
  rw [start_bind, start_askStore]
  refine ⟨fun _ heq => (nomatch heq), fun reply => ?_⟩
  cases reply with
  | error e => trivial
  | ok found =>
      let log : Log := [⟨.store c.store (.query (Query.of Server)), .ok found⟩, ⟨.now, now⟩]
      have hfound : log.IsWithin places c.store → ∀ d ∈ found, places d.id := fun hlog d hd =>
        (hlog _ List.mem_cons_self).found _ d.id ⟨rfl, rfl, d, hd, rfl⟩
      obtain ⟨result, seen, hgather, hseen⟩ :=
        start_gather_observed Server found (Session.empty c.store true)
      obtain ⟨_, _, hsame, hmembers⟩ := start_gather Server found (Session.empty c.store true)
      rw [hgather] at hsame
      cases hsame
      have hobserved : (seen.foldl Session.observe (Session.empty c.store true)).StaysWithin
          places c.store log :=
        (Session.staysWithin_empty c.store log).observe fun hlog d hd => hfound hlog d (hseen d hd)
      change (start (gather Server found) _ >>= _).Conforms _ _ _
      rw [hgather, Interaction.done_bind]
      cases result with
      | error e => trivial
      | ok servers =>
          simp only
          rw [start_bind, start_deleteAll, Interaction.done_bind]
          refine conforms_then_saved_within (hobserved.deleteAll fun hlog entry hentry => ?_) _
          obtain ⟨d, hd, hid⟩ := hmembers servers rfl entry (List.mem_of_mem_filter hentry)
          exact hid ▸ hfound hlog d hd

end Servers

end Connection

namespace Simulation.StorageTask

def IsWithin (places : DocId → Prop) : StorageTask → Prop
  | transact _ plan => plan.All (Operation.IsWithin places)
  | setJobParameter _ job .. => places (Step.jobDocument job)
  | setFields _ key _ => places (Document.idFor FieldMap key)
  | announceServer _ server _ | heartbeat _ server | removeServer _ server =>
    places (Document.idFor Server server)
  | createJob .. | removeTimedOutServers .. | enqueue .. | dequeue .. | acknowledge _ | abandon _
  | drop _ | reap .. => True

theorem conforms_within {task : StorageTask} (hat : task.At store)
    (hwithin : task.IsWithin places) :
    task.program.Conforms (WritesWithin places store) (fun _ _ => True) [] := by
  have hdiscarded : ∀ {α : Type} {p : Program α},
      p.Conforms (WritesWithin places store) (fun _ _ => True) [] →
      (discard p).Conforms (WritesWithin places store) (fun _ _ => True) [] :=
    fun hp => hp.bind fun _ _ _ => trivial
  have hloose : ∀ {α : Type} {p : Program α} {allowed : Log → Request → Prop}
      {ends : Log → α → Prop}, p.Conforms allowed ends [] →
      (∀ log request, allowed log request → WritesWithin places store log request) →
      p.Conforms (WritesWithin places store) (fun _ _ => True) [] :=
    fun hp hwithin => (hp.weaken hwithin).mono fun _ _ _ => trivial
  cases task with
  | transact c plan =>
      cases hat
      exact hdiscarded (TransactionPlan.conforms_within hwithin c)
  | createJob c invocation parameters createdAt length =>
      cases hat
      exact hdiscarded (c.conforms_createExpiredJob_within invocation parameters createdAt length)
  | setJobParameter c job name value =>
      cases hat
      exact hdiscarded (c.conforms_setJobParameter_within hwithin name value)
  | setFields c key fields =>
      cases hat
      exact hdiscarded (c.conforms_setFields_within hwithin fields)
  | announceServer c server data =>
      obtain ⟨rfl, _⟩ := hat
      exact hdiscarded (c.conforms_announceServer_within hwithin data)
  | heartbeat c server =>
      cases hat
      exact hdiscarded (c.conforms_heartbeat_within hwithin)
  | removeServer c server =>
      cases hat
      exact hdiscarded (c.conforms_removeServer_within hwithin)
  | removeTimedOutServers c timeout =>
      cases hat
      exact hdiscarded (c.conforms_removeTimedOutServers_within timeout)
  | enqueue q queue jobId =>
      cases hat
      exact hdiscarded (hloose (q.conforms_enqueue queue jobId)
        fun _ _ => writesWithin_of_produces)
  | dequeue q queues token limit =>
      cases hat
      exact hdiscarded (hloose (q.conforms_dequeue queues token limit)
        fun _ _ => JobQueue.writesWithin_of_asks)
  | acknowledge l =>
      obtain ⟨rfl, _⟩ := hat
      exact hdiscarded (hloose Lease.conforms_acknowledge
        fun _ _ => Lease.writesWithin_of_resolves fun _ _ => rfl)
  | abandon l =>
      obtain ⟨rfl, _⟩ := hat
      exact hdiscarded (hloose Lease.conforms_abandon
        fun _ _ => Lease.writesWithin_of_resolves fun _ _ => rfl)
  | drop l =>
      obtain ⟨rfl, _⟩ := hat
      exact hdiscarded (hloose Lease.conforms_drop
        fun _ _ => Lease.writesWithin_of_resolves fun _ _ => rfl)
  | reap r rounds =>
      exact hdiscarded (r.conforms_runOnce rounds (fun _ _ heq => nomatch heq)
        fun _ _ _ _ heq => nomatch heq)

end Simulation.StorageTask

end Jobyard
