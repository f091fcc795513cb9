import Jobyard.Connection.Basic
import Jobyard.Proofs.Transaction.Conduct
import Jobyard.Proofs.Transaction.Grouping

/-!
Transactions that leave the expiry of a document alone. Whatever else they do with the document,
they write it with the expiry that the store showed, or expect that the store does not have it.
-/

namespace Jobyard

namespace Edit

variable {e : Edit} {now : Instant} {t next : Tracked} {writes : List Write}

def adds : Edit → Bool
  | addToSet .. | addRangeToSet .. | appendToList .. | setFields .. => true
  | _ => false

def IsUndated (e : Edit) : Prop := ∀ now, e.dated now = none

theorem isUndated_of_adds (h : e.adds) : e.IsUndated := by
  cases e with
  | addToSet | addRangeToSet | appendToList | setFields => exact fun _ => rfl
  | _ => cases h

theorem expiresAt_of_isUndated (hundated : e.IsUndated) (hadds : e.isAddition = false)
    (h : e.revise now t = .ok (next, writes)) : next.expiresAt = t.expiresAt := by
  obtain ⟨_, hsettles⟩ := settles_of_not_addition hadds h
  rw [hsettles.expiresAt, hundated now]
  exact ite_self _

theorem status_of_change {α : Type} [FindOrCreate α] {id : DocId} {f : α → α}
    (h : (t.change α id f).map (·, ([] : List Write)) = .ok (next, writes)) :
    next.status = .dirty := by
  unfold Tracked.change at h
  cases hfill : t.fill α id with
  | error failure =>
      rw [hfill] at h
      cases h
  | ok filled =>
      rw [hfill] at h
      cases h
      rfl

theorem status_of_adds (hadds : e.adds) (h : e.revise now t = .ok (next, writes)) :
    next.status = .dirty := by
  cases e with
  | addToSet | addRangeToSet | appendToList | setFields => exact status_of_change h
  | _ => cases hadds

end Edit

/-- What a session holds of a document that keeps its expiry: of the version that it saw also the
expiry, and if the document is to last, it does not delete it. -/
structure Tracked.Retains (expiresAt : Option Instant) (lasts : Prop) (t : Tracked) : Prop where
  expiry : t.etag = none ∨ t.expiresAt = expiresAt
  lasting : lasts → t.status ≠ .deleted

/-- A write that leaves a document with its expiry, or expects that there is none. -/
def Write.Retains (expiresAt : Option Instant) (lasts : Prop) : Write → Prop
  | .put _ _ date expected => expected = .absent ∨ date = expiresAt
  | .delete .. => ¬ lasts
  | .increment .. => False

def Batch.Retains (batch : Batch) (id : DocId) (expiresAt : Option Instant) (lasts : Prop) : Prop :=
  ∃ write : Option Write, (batch.filter fun w => w.id = id) = write.toList ∧
    ∀ w ∈ write, w.Retains expiresAt lasts

def Log.Dates (log : Log) (store : StoreRef) (id : DocId) (expiresAt : Option Instant) : Prop :=
  ∀ exchange ∈ log, ∀ d, exchange.Loads store id d → d.expiresAt = expiresAt

structure Session.Retains (s : Session) (target : StoreRef) (id : DocId)
    (expiresAt : Option Instant) (lasts : Prop) (log : Log) : Prop where
  store : s.store = target
  optimistic : s.optimistic = true
  distinct : s.Distinct
  deferred : ∀ w ∈ s.deferred, w.id ≠ id
  held : log.Dates target id expiresAt → ∀ t, s.find? id = some t → t.Retains expiresAt lasts

structure Retaining (store : StoreRef) (id : DocId) (expiresAt : Option Instant) (lasts : Prop)
    (log : Log) (request : Request) : Prop where
  calls : ∀ target call, request = .store target call →
    (∃ ids, call = .load ids) ∨ ∃ batch, call = .commit batch
  batch : ∀ batch, request = .store store (.commit batch) → log.Dates store id expiresAt →
    batch.Retains id expiresAt lasts

section Retain

variable {store : StoreRef} {id : DocId} {expiresAt : Option Instant} {lasts : Prop} {log : Log}
  {s next : Session} {t : Tracked} {writes : List Write}

theorem Log.Dates.of_cons {exchange : Exchange}
    (h : Log.Dates (exchange :: log) store id expiresAt) : log.Dates store id expiresAt :=
  fun other hmem => h other (List.mem_cons_of_mem _ hmem)

theorem retaining_of_observes {request : Request} (h : Work.Observes store log request) :
    Retaining store id expiresAt lasts log request := by
  rcases h.2 with rfl | ⟨ids, rfl⟩
  · exact ⟨fun _ _ heq => (nomatch heq), fun _ heq => nomatch heq⟩
  · refine ⟨fun _ _ heq => ?_, fun _ heq => nomatch heq⟩
    cases heq
    exact .inl ⟨ids, rfl⟩

theorem Tracked.Retains.write? {w : Write} (h : t.Retains expiresAt lasts)
    (hwrite : t.write? true id = some w) : w.Retains expiresAt lasts := by
  obtain ⟨body, etag, known, date, status⟩ := t
  cases status with
  | unchanged => cases hwrite
  | deleted =>
      have hgone : ¬ lasts := fun hlasts => h.lasting hlasts rfl
      cases known <;> cases etag <;> cases hwrite <;> exact hgone
  | dirty =>
      obtain ⟨content, _, rfl⟩ := Option.map_eq_some_iff.mp hwrite
      cases etag with
      | none => exact .inl rfl
      | some etag => exact .inr (h.expiry.resolve_left (nofun : some etag ≠ none))

namespace Session

theorem retains_empty (store : StoreRef) (log : Log) :
    (empty store true).Retains store id expiresAt lasts log :=
  ⟨rfl, rfl, distinct_empty store true, fun _ h => (nomatch h), fun _ _ h => nomatch h⟩

theorem Retains.cons (h : s.Retains store id expiresAt lasts log) (exchange : Exchange) :
    s.Retains store id expiresAt lasts (exchange :: log) :=
  ⟨h.store, h.optimistic, h.distinct, h.deferred, fun hdates => h.held hdates.of_cons⟩

theorem Retains.amend {other : DocId} (h : s.Retains store id expiresAt lasts log)
    (hamends : s.Amends next other t writes) (hwrites : ∀ w ∈ writes, w.id ≠ id)
    (hheld : other = id → log.Dates store id expiresAt → t.Retains expiresAt lasts) :
    next.Retains store id expiresAt lasts log where
  store := hamends.store.trans h.store
  optimistic := hamends.optimistic.trans h.optimistic
  distinct := hamends.distinct h.distinct
  deferred w hmem := by
    rw [hamends.deferred] at hmem
    exact (List.mem_append.mp hmem).elim (h.deferred w) (hwrites w)
  held hdates u hfound := by
    by_cases hid : other = id
    · have hself := hamends.self
      rw [hid, hfound, Option.getD_some] at hself
      exact hself ▸ hheld hid hdates
    · rw [hamends.others id (Ne.symm hid)] at hfound
      exact h.held hdates u hfound

theorem Retains.glimpse (h : s.Retains store id expiresAt lasts log)
    (hseen : s.Glimpses log id t) (hdates : log.Dates store id expiresAt) :
    t.Retains expiresAt lasts := by
  rcases hseen with hheld | ⟨_, hreports⟩
  · exact h.held hdates t hheld
  · rw [h.store] at hreports
    cases hreports with
    | silent => exact ⟨.inl rfl, fun _ => nofun⟩
    | absent => exact ⟨.inl rfl, fun _ => nofun⟩
    | stored d hloads =>
        obtain ⟨exchange, hmem, hloads⟩ := hloads
        exact ⟨.inr (hdates exchange hmem d hloads), fun _ => nofun⟩

theorem Retains.batch (h : s.Retains store id expiresAt lasts log)
    (hdates : log.Dates store id expiresAt) : s.batch.Retains id expiresAt lasts := by
  have hnone : (s.deferred.filter fun w => w.id = id) = [] :=
    List.filter_eq_nil_iff.mpr fun w hmem => by simpa using h.deferred w hmem
  refine ⟨(s.find? id).bind fun t => t.write? s.optimistic id, ?_, fun w hmem => ?_⟩
  · rw [batch_eq, List.filter_append, hnone, List.append_nil]
    exact filter_documentWrites h.distinct id
  · obtain ⟨t, hfound, hwrite⟩ := Option.bind_eq_some_iff.mp hmem
    rw [h.optimistic] at hwrite
    exact (h.held hdates t hfound).write? hwrite

end Session

def Operation.Retains (id : DocId) (lasts : Prop) : Operation → Prop
  | edit e => e.id = id → e.IsUndated ∧ (lasts → e.adds)
  | addToQueue .. => True

/-- A document that neither counts nor stands in a queue. -/
structure DocId.IsCollection (id : DocId) : Prop where
  counter : id.collection ≠ Document.collection Counter
  queueEntry : id.collection ≠ Document.collection QueueEntry

theorem DocId.IsCollection.isAddition {e : Edit} (hid : id.IsCollection) (h : e.id = id) :
    e.isAddition = false := by
  rw [Edit.isAddition_eq, h]
  exact decide_eq_false hid.counter

theorem DocId.IsCollection.id_ne {e : Edit} {now : Instant} {seen : Tracked}
    (hid : id.IsCollection) (h : e.revise now seen = .ok (t, writes)) :
    ∀ w ∈ writes, w.id ≠ id := by
  rintro w hmem rfl
  obtain ⟨_, _, _, rfl⟩ := (Edit.succeeds_of_revise h).2 w hmem
  obtain ⟨rfl, _⟩ := Edit.settles_of_not_addition (hid.isAddition rfl) h
  cases hmem

theorem Tracked.Retains.revise {e : Edit} {now : Instant} {seen : Tracked}
    (h : seen.Retains expiresAt lasts) (hid : id.IsCollection) (heid : e.id = id)
    (hretains : e.IsUndated ∧ (lasts → e.adds)) (hrevise : e.revise now seen = .ok (t, writes)) :
    t.Retains expiresAt lasts where
  expiry := by
    rw [(Edit.succeeds_of_revise hrevise).1.etag,
      Edit.expiresAt_of_isUndated hretains.1 (hid.isAddition heid) hrevise]
    exact h.expiry
  lasting hlasts := by
    rw [Edit.status_of_adds (hretains.2 hlasts) hrevise]
    decide

namespace Step

variable {transaction : Transaction}

theorem conforms_retained {op : Operation} (hid : id.IsCollection) (hop : op.Retains id lasts)
    (hopen : log.accepted? = none)
    (h : transaction.session.Retains store id expiresAt lasts log) :
    (op.step.start transaction).Conforms (Retaining store id expiresAt lasts)
      (fun log result => log.accepted? = none ∧
        result.2.session.Retains store id expiresAt lasts log) log := by
  cases op with
  | addToQueue queue jobId =>
      change (start (addToQueue queue jobId) transaction).Conforms _ _ _
      rw [start_addToQueue]
      refine ⟨⟨fun _ _ heq => (nomatch heq), fun _ heq => nomatch heq⟩, fun key => ⟨rfl, ?_⟩⟩
      refine (h.cons _).amend ((Session.amends_self _ _).put _) (fun _ hmem => nomatch hmem) ?_
      rintro rfl
      exact absurd rfl hid.queueEntry
  | edit e =>
      have hstable : ∀ log exchange, transaction.session.Retains store id expiresAt lasts log →
          transaction.session.Retains store id expiresAt lasts (exchange :: log) :=
        fun _ exchange h => h.cons exchange
      have hstep := (e.conforms_step transaction hopen).and_of_stable h hstable
      rw [h.store] at hstep
      refine (hstep.weaken fun _ _ => retaining_of_observes).mono
        fun log result ⟨⟨hopen, next, hnext, hends⟩, h⟩ => ⟨hopen, ?_⟩
      obtain ⟨result, after⟩ := result
      cases hnext
      rcases hends with ⟨failure, rfl, rfl⟩ | ⟨seen, now, hseen, hyields⟩
      · exact h
      · generalize houtcome : e.handling now seen = outcome at hyields
        cases hyields with
        | amended hamends =>
          unfold Edit.handling Handling.revise at houtcome
          split at houtcome
          · rename_i hrevise
            cases houtcome
            exact h.amend hamends (hid.id_ne hrevise) fun heid hdates =>
              (h.glimpse (heid ▸ hseen) hdates).revise hid heid (hop heid) hrevise
          · cases houtcome
            exact h.amend hamends (fun _ hmem => nomatch hmem) fun heid hdates =>
              h.glimpse (heid ▸ hseen) hdates

theorem conforms_commit_retaining
    (h : transaction.session.Retains store id expiresAt lasts log) :
    (commit.start transaction).Conforms (Retaining store id expiresAt lasts)
      (fun _ _ => True) log := by
  refine conforms_commit_of_saved
    (fun _ _ => ⟨fun _ _ heq => (nomatch heq), fun _ heq => nomatch heq⟩)
    (fun _ _ => ⟨fun _ _ heq => (nomatch heq), fun _ heq => nomatch heq⟩) ?_
  rw [Work.start_saveChanges]
  split
  · trivial
  · rw [h.store]
    refine ⟨⟨fun _ _ heq => ?_, fun batch heq hdates => ?_⟩, fun reply => ?_⟩
    · cases heq
      exact .inr ⟨_, rfl⟩
    · cases heq
      exact h.batch hdates
    · cases reply <;> trivial

end Step

theorem TransactionPlan.conforms_retaining {plan : TransactionPlan} (hid : id.IsCollection)
    (hplan : plan.All (Operation.Retains id lasts)) (c : Connection) :
    (plan.program c.transaction []).Conforms (Retaining c.store id expiresAt lasts)
      (fun _ _ => True) [] :=
  plan.conforms (fun log _ t => log.accepted? = none ∧
      t.session.Retains c.store id expiresAt lasts log)
    (fun _ _ _ _ => trivial) (fun _ _ _ h => Step.conforms_commit_retaining h.2)
    (fun _ hop _ _ _ h => Step.conforms_retained hid hop h.1 h.2) hplan
    ⟨rfl, Session.retains_empty c.store []⟩

end Retain

end Jobyard
