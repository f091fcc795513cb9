import Jobyard.Proofs.Job.Life
import Jobyard.Proofs.Transaction.Proper

/-!
What transactions make of jobs. The session of a transaction holds each job as it was loaded, after
the states that it has entered since; the commit puts it under the version that was loaded.
-/

namespace Jobyard

def Edit.entered? (job : JobId) : Edit → Option JobState
  | .setJobState id state => if id = job then some state else none
  | _ => none

def Operation.entered? (job : JobId) : Operation → Option JobState
  | .edit e => e.entered? job
  | .addToQueue .. => none

def enteredBy (job : JobId) (ops : List Operation) : List JobState :=
  (ops.filterMap (Operation.entered? job)).reverse

theorem enteredBy_concat (job : JobId) (ops : List Operation) (op : Operation) :
    enteredBy job (ops ++ [op]) = (op.entered? job).toList ++ enteredBy job ops := by
  unfold enteredBy
  rw [List.filterMap_append, List.reverse_append]
  cases hentered : op.entered? job <;> simp [hentered]

/-- What a transaction holds of a job: nothing, or what it loaded, after the states that it entered
since. -/
inductive Tracked.Records (store : StoreRef) (log : Log) (id : DocId) :
    Tracked → List JobState → Prop
  | missing {t : Tracked} (hbody : t.body = none) (hstatus : t.status = .unchanged) :
    Records store log id t []
  | loaded {t : Tracked} {d : Stored} (hloads : ∃ exchange ∈ log, exchange.Loads store id d)
    (hetag : t.etag = some d.etag) (hbody : t.body = some d.body) (hstatus : t.status ≠ .deleted) :
    Records store log id t []
  | entered {t : Tracked} {d : Stored} {j next : Job} {states : List JobState}
    (hloads : ∃ exchange ∈ log, exchange.Loads store id d) (hetag : t.etag = some d.etag)
    (hread : Document.decode? d.body = some j) (henters : j.Enters states next)
    (hbody : t.body = some (Document.encode next)) (hstatus : t.status = .dirty) :
    Records store log id t states

namespace Tracked.Records

variable {store : StoreRef} {log : Log} {id : DocId} {t next : Tracked} {states : List JobState}

theorem cons (h : t.Records store log id states) (exchange : Exchange) :
    t.Records store (exchange :: log) id states := by
  cases h with
  | missing hbody hstatus => exact .missing hbody hstatus
  | loaded hloads hetag hbody hstatus =>
      obtain ⟨shown, hmem, hloads⟩ := hloads
      exact .loaded ⟨shown, List.mem_cons_of_mem _ hmem, hloads⟩ hetag hbody hstatus
  | entered hloads hetag hread henters hbody hstatus =>
      obtain ⟨shown, hmem, hloads⟩ := hloads
      exact .entered ⟨shown, List.mem_cons_of_mem _ hmem, hloads⟩ hetag hread henters hbody hstatus

theorem of_reports (h : unasked.Records store log id states) (hreports : log.Reports store id t) :
    t.Records store log id states := by
  cases h with
  | missing hbody hstatus =>
      cases hreports with
      | silent => exact .missing rfl rfl
      | absent => exact .missing rfl rfl
      | stored d hloads => exact .loaded hloads rfl rfl (by simp [ofStored])
  | loaded hloads hetag => cases hetag
  | entered hloads hetag => cases hetag

theorem dateIfPresent (h : t.Records store log id states) (expiresAt : Option Instant) :
    (t.dateIfPresent expiresAt).Records store log id states := by
  unfold Tracked.dateIfPresent
  split
  · rename_i hpresent
    cases h with
    | missing hbody => simp [isPresent, hbody] at hpresent
    | loaded hloads hetag hbody => exact .loaded hloads hetag hbody (by simp [date])
    | entered hloads hetag hread henters hbody =>
        exact .entered hloads hetag hread henters hbody rfl
  · exact h

theorem enter (h : t.Records store log id states) {state : JobState} {now : Instant}
    (henter : t.enter id state now = .ok next) :
    next.Records store log id (state :: states) := by
  obtain ⟨found, hdecode, hnext⟩ := bind_eq_ok.mp henter
  cases found with
  | none => cases hnext
  | some job =>
      cases hnext
      obtain ⟨body, hheld, hread⟩ := body_of_decode hdecode
      cases h with
      | missing hbody =>
          rw [hbody] at hheld
          cases hheld
      | loaded hloads hetag hbody =>
          rw [hbody] at hheld
          cases hheld
          exact .entered hloads hetag hread (.step state now .refl) rfl rfl
      | entered hloads hetag hfirst henters hbody =>
          rw [hbody] at hheld
          cases hheld
          cases (Job.lasting _).eq_of_decode hread
          exact .entered hloads hetag hfirst (henters.step state now) rfl rfl

theorem fate {m final : Memory} (h : t.Records store log id states)
    (hdates : ∀ d, (∃ exchange ∈ log, exchange.Loads store id d) → m.Dates id d)
    (hrewrites : Memory.Rewrites (t.write? true id).toList (m.find? id) (final.find? id)) :
    JobFate (·.enter states) (m.find? id) (final.find? id) := by
  cases h with
  | missing hbody hstatus =>
      simp only [write?, hstatus, Option.toList_none] at hrewrites
      rw [Memory.rewrites_nil hrewrites]
      exact .kept _ rfl
  | loaded hloads hetag hbody hstatus =>
      cases hdirty : t.status with
      | unchanged =>
          simp only [write?, hdirty, Option.toList_none] at hrewrites
          rw [Memory.rewrites_nil hrewrites]
          exact .kept _ rfl
      | dirty =>
          simp only [write?, hdirty, hbody, hetag, Option.map_some, Option.toList_some]
            at hrewrites
          -- At most the expiry was set: the body goes back as it was loaded.
          refine .of_put (hdates _ hloads) hrewrites fun life last hlast => ?_
          rintro ⟨j, hread, htells⟩
          exact ⟨j, hlast ▸ hread, htells⟩
      | deleted => exact absurd hdirty hstatus
  | entered hloads hetag hread henters hbody hstatus =>
      simp only [write?, hstatus, hbody, hetag, Option.map_some, Option.toList_some] at hrewrites
      refine .of_put (hdates _ hloads) hrewrites fun life last hlast => ?_
      rintro ⟨j, hfirst, htells⟩
      cases hread.symm.trans hfirst
      exact Stored.tells_encode hlast (htells.enters henters)

end Tracked.Records

namespace Edit

variable {e : Edit} {now : Instant} {seen t : Tracked} {writes : List Write}

theorem records_revise {job : JobId} {store : StoreRef} {log : Log} {states : List JobState}
    (hid : e.id = Step.jobDocument job) (hseen : seen.Records store log e.id states)
    (hrevise : e.revise now seen = .ok (t, writes)) :
    t.Records store log e.id ((e.entered? job).toList ++ states) ∧ writes = [] := by
  have hcollection := congrArg DocId.collection hid
  cases e with
  | expireJob id length =>
      cases hrevise
      exact ⟨hseen.dateIfPresent _, rfl⟩
  | persistJob id =>
      cases hrevise
      exact ⟨hseen.dateIfPresent _, rfl⟩
  | setJobState id state =>
      have hjob : id = job := Step.jobDocument_injective hid
      rw [show Edit.entered? job (.setJobState id state) = some state from if_pos hjob]
      cases henter : seen.enter (Step.jobDocument id) state now with
      | error failure =>
          simp only [revise, Edit.id, henter] at hrevise
          cases hrevise
      | ok next =>
          simp only [revise, Edit.id, henter] at hrevise
          cases hrevise
          exact ⟨hseen.enter henter, rfl⟩
  | _ => exact absurd hcollection (of_decide_eq_false rfl)

theorem entered?_of_ne {job : JobId} (hid : e.id ≠ Step.jobDocument job) :
    e.entered? job = none := by
  cases e with
  | setJobState id state => exact if_neg fun hjob => hid (congrArg Step.jobDocument hjob)
  | _ => rfl

end Edit

structure Session.Records (store : StoreRef) (log : Log) (ops : List Operation) (s : Session) :
    Prop where
  records : ∀ job, ((s.find? (Step.jobDocument job)).getD .unasked).Records store log
    (Step.jobDocument job) (enteredBy job ops)
  store : s.store = store
  optimistic : s.optimistic = true
  distinct : s.Distinct
  deferred : ∀ job, ∀ w ∈ s.deferred, w.id ≠ Step.jobDocument job

namespace Session

variable {store : StoreRef} {log : Log} {ops : List Operation} {s next : Session}

theorem records_empty (store : StoreRef) (log : Log) : (empty store true).Records store log [] where
  store := rfl
  optimistic := rfl
  distinct := distinct_empty store true
  deferred _ _ h := nomatch h
  records _ := .missing rfl rfl

theorem Records.cons (h : s.Records store log ops) (exchange : Exchange) :
    s.Records store (exchange :: log) ops :=
  ⟨fun job => (h.records job).cons exchange, h.store, h.optimistic, h.distinct, h.deferred⟩

theorem Records.glimpse {id : DocId} {seen : Tracked} (h : s.Records store log ops) {job : JobId}
    (hid : id = Step.jobDocument job) (hseen : s.Glimpses log id seen) :
    seen.Records store log id (enteredBy job ops) := by
  have hheld := h.records job
  rw [← hid] at hheld
  rcases hseen with hfound | ⟨hnone, hreports⟩
  · rw [hfound] at hheld
    exact hheld
  · rw [hnone] at hheld
    exact Tracked.Records.of_reports hheld (h.store ▸ hreports)

theorem Records.failed {id : DocId} {seen : Tracked} (h : s.Records store log ops)
    (hseen : s.Glimpses log id seen) (hamends : s.Amends next id seen []) :
    next.Records store log ops where
  store := hamends.store.trans h.store
  optimistic := hamends.optimistic.trans h.optimistic
  distinct := hamends.distinct h.distinct
  deferred job w hw := by
    rw [hamends.deferred, List.append_nil] at hw
    exact h.deferred job w hw
  records job := by
    by_cases hid : id = Step.jobDocument job
    · have hnext := h.glimpse hid hseen
      rw [← hid, hamends.self]
      exact hnext
    · rw [hamends.others _ (Ne.symm hid)]
      exact h.records job

theorem Records.edited {e : Edit} {now : Instant} {seen t : Tracked} {writes : List Write}
    (h : s.Records store log ops) (hseen : s.Glimpses log e.id seen)
    (hrevise : e.revise now seen = .ok (t, writes)) (hamends : s.Amends next e.id t writes) :
    next.Records store log (ops ++ [.edit e]) where
  store := hamends.store.trans h.store
  optimistic := hamends.optimistic.trans h.optimistic
  distinct := hamends.distinct h.distinct
  deferred job w hw := by
    rw [hamends.deferred] at hw
    rcases List.mem_append.mp hw with hearlier | hnew
    · exact h.deferred job w hearlier
    · -- An edit of a job defers nothing.
      intro hid
      obtain ⟨field, delta, expiresAt, rfl⟩ := (Edit.succeeds_of_revise hrevise).2 w hnew
      rw [(Edit.records_revise hid (h.glimpse hid hseen) hrevise).2] at hnew
      cases hnew
  records job := by
    rw [enteredBy_concat]
    by_cases hid : e.id = Step.jobDocument job
    · have hnext := (Edit.records_revise hid (h.glimpse hid hseen) hrevise).1
      rw [← hid, hamends.self]
      exact hnext
    · rw [hamends.others _ (Ne.symm hid),
        show Operation.entered? job (.edit e) = none from Edit.entered?_of_ne hid]
      exact h.records job

/-- A commit has each job enter the states that the transaction gave it. -/
theorem Records.fate {m final : Memory} (h : s.Records store log ops)
    (hdates : ∀ job d, (∃ exchange ∈ log, exchange.Loads store (Step.jobDocument job) d) →
      m.Dates (Step.jobDocument job) d)
    (hcommit : m.commit s.batch = .ok final) (job : JobId) :
    JobFate (·.enter (enteredBy job ops)) (m.find? (Step.jobDocument job))
      (final.find? (Step.jobDocument job)) := by
  have hrewrites := rewrites_of_commit h.distinct hcommit (Step.jobDocument job)
  have hnone : s.deferred.filter (fun w => w.id = Step.jobDocument job) = [] :=
    List.filter_eq_nil_iff.mpr fun w hw => by simp [h.deferred job w hw]
  have hwrite : ((s.find? (Step.jobDocument job)).bind fun t =>
      t.write? s.optimistic (Step.jobDocument job)) =
        ((s.find? (Step.jobDocument job)).getD .unasked).write? true (Step.jobDocument job) := by
    rw [h.optimistic]
    cases s.find? (Step.jobDocument job) <;> rfl
  rw [hnone, List.append_nil, hwrite] at hrewrites
  exact (h.records job).fate (fun d => hdates job d) hrewrites

end Session

end Jobyard
