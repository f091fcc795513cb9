import Jobyard.Proofs.Session.Glimpse
import Jobyard.Proofs.Transaction.Conflict

/-!
The conduct of transactions. Whatever the store answers, an edit does with its document what it
would do with it in a calm world, and a transaction is built operation by operation.
-/

namespace Jobyard

theorem Session.amends_amend (s : Session) (id : DocId) (t : Tracked) (writes : List Write) :
    s.Amends (s.amend id t writes) id t writes where
  store := rfl
  optimistic := rfl
  deferred := rfl
  self := by rw [find?_amend, if_pos rfl, Option.getD_some]
  others other hne := (find?_amend s id other t writes).trans (if_neg hne)
  distinct h := h.track id t

namespace Handling

/-- The handling that revises a document, and leaves it alone if that fails. -/
def revise (f : Tracked → Except StoreError (Tracked × List Write)) : Handling Unit := fun seen =>
  match f seen with
  | .ok (t, writes) => (.ok (), t, writes)
  | .error e => (.error e, seen, [])

section Kinds

variable (α : Type) [FindOrCreate α] (id : DocId)

theorem change_eq (f : α → α) :
    ((loadOrBlank α id).bind fun document => .save (f document)) =
      revise fun t => (t.change α id f).map (·, []) := by
  funext seen
  cases hfill : seen.fill α id <;>
    simp [bind, loadOrBlank, save, revise, Tracked.change, hfill, Bind.bind, Except.bind,
      Except.map]

theorem changeOrDrop_eq (f : α → α) (isEmpty : α → Bool) :
    ((loadOrBlank α id).bind fun document =>
      if isEmpty (f document) then .drop else .save (f document)) =
      revise fun t => (t.changeOrDrop α id f isEmpty).map (·, []) := by
  funext seen
  cases hfill : seen.fill α id with
  | error e =>
      simp [bind, loadOrBlank, revise, Tracked.changeOrDrop, hfill, Bind.bind, Except.bind,
        Except.map]
  | ok filled =>
      cases hempty : isEmpty (f filled.1) <;>
        simp [bind, loadOrBlank, save, drop, revise, Tracked.changeOrDrop, hfill, hempty, Bind.bind,
          Except.bind, Except.map]

theorem fillAndDate_eq (expiresAt : Option Instant) :
    ((loadOrBlank α id).discard.bind fun _ => (updateExpiry expiresAt).discard) =
      revise fun t => (t.fillAndDate α id expiresAt).map (·, []) := by
  funext seen
  cases hfill : seen.fill α id with
  | error e =>
      simp [bind, discard, loadOrBlank, revise, Tracked.fillAndDate, hfill, Bind.bind, Except.bind,
        Except.map]
  | ok filled =>
      have hpresent : filled.2.isPresent = true := Tracked.isPresent_of_fill hfill
      simp [bind, discard, loadOrBlank, updateExpiry, revise, Tracked.fillAndDate, hfill, hpresent,
        Bind.bind, Except.bind, Except.map]

end Kinds

theorem enter_eq (id : DocId) (state : JobState) (now : Instant) :
    ((load Job id).bind fun found =>
      match found with
      | none => .give (.error (.missing id))
      | some job => .save (job.enter state now)) =
      revise fun t => (t.enter id state now).map (·, []) := by
  funext seen
  rcases hdecode : seen.decode Job id with e | _ | job <;>
    simp [bind, load, give, save, revise, Tracked.enter, hdecode, Bind.bind, Except.bind,
      Except.map]

end Handling

namespace Work

variable {id : DocId}

theorem handles_change (α : Type) [FindOrCreate α] (key : String) (f : α → α) :
    Handles (Document.idFor α key)
      (fun _ => .revise fun t => (t.change α (Document.idFor α key) f).map (·, []))
      (change α key f) := by
  rw [← Handling.change_eq]
  exact (handles_loadOrBlank α _).bind fun _ document _ _ _ => settles_save (f document)

theorem handles_changeOrDelete (α : Type) [FindOrCreate α] (key : String) (f : α → α)
    (isEmpty : α → Bool) :
    Handles (Document.idFor α key)
      (fun _ => .revise fun t => (t.changeOrDrop α (Document.idFor α key) f isEmpty).map (·, []))
      (changeOrDelete α key f isEmpty) := by
  rw [← Handling.changeOrDrop_eq]
  refine (handles_loadOrBlank α _).bind fun _ document t _ _ => ?_
  change Settles _ _ (fun _ => if isEmpty (f document) then .drop else .save (f document))
    (if isEmpty (f document) then delete _ else save _ (f document))
  cases isEmpty (f document) with
  | true => exact settles_delete
  | false => exact settles_save (f document)

theorem isPresent_of_loadOrBlank {α : Type} [FindOrCreate α] {seen t : Tracked} {value : Unit}
    {writes : List Write}
    (h : (Handling.loadOrBlank α id).discard seen = (.ok value, t, writes)) :
    t.isPresent = true := by
  unfold Handling.discard Handling.loadOrBlank at h
  cases hfill : seen.fill α id with
  | error e =>
      rw [hfill] at h
      cases h
  | ok filled =>
      rw [hfill] at h
      cases h
      exact Tracked.isPresent_of_fill hfill

theorem handles_expire (α : Type) [FindOrCreate α] (id : DocId) (length : Duration) :
    Handles id
      (fun now => .revise fun t =>
        (t.fillAndDate α id (some (now.expiresIn length))).map (·, []))
      (do
        discard (loadOrBlank α id)
        let now ← Work.now
        discard (setExpiry id (now.expiresIn length))) := by
  simp only [← Handling.fillAndDate_eq]
  exact (handles_loadOrBlank α id).discard.bind (g := fun _ now =>
    (Handling.updateExpiry (some (now.expiresIn length))).discard) fun _ _ _ _ hfilled =>
    Settles.now fun _ => (settles_updateExpiry (isPresent_of_loadOrBlank hfilled) _).discard

theorem handles_persist (α : Type) [FindOrCreate α] (id : DocId) :
    Handles id (fun _ => .revise fun t => (t.fillAndDate α id none).map (·, []))
      (do
        discard (loadOrBlank α id)
        discard (removeExpiry id)) := by
  rw [← Handling.fillAndDate_eq]
  exact (handles_loadOrBlank α id).discard.bind fun _ _ _ _ hfilled =>
    (settles_updateExpiry (isPresent_of_loadOrBlank hfilled) none).discard

theorem handles_enter (id : DocId) (state : JobState) :
    Handles id (fun now => .revise fun t => (t.enter id state now).map (·, []))
      (do
        match ← load Job id with
        | none => throw (.missing id)
        | some job =>
          let now ← Work.now
          save id (job.enter state now)) := by
  simp only [← Handling.enter_eq]
  refine (handles_load Job id).bind (g := fun found now =>
    match found with
    | none => .give (.error (.missing id))
    | some job => .save (job.enter state now)) fun _ found t _ _ => ?_
  cases found with
  | none => exact settles_throw _
  | some job => exact Settles.now fun now => settles_save (job.enter state now)

theorem handles_delete (id : DocId) :
    Handles id (fun _ => .revise fun t => .ok (t.drop, [])) (delete id) :=
  handles_of_settles fun _ => settles_delete

theorem Handles.after_now {α : Type} {f : Instant → Handling α} {k : Instant → Work α}
    (h : ∀ now, Handles id (fun _ => f now) (k now)) : Handles id f (Work.now >>= k) := by
  intro s log hopen
  rw [start_bind, start_now]
  refine ⟨⟨hopen, .inl rfl⟩, fun now => ?_⟩
  refine (h now s _ rfl).mono fun log result ⟨hopen, hends⟩ => ⟨hopen, ?_⟩
  rcases hends with hfailed | ⟨seen, _, hseen, hends⟩
  · exact .inl hfailed
  · exact .inr ⟨seen, now, hseen, hends⟩

theorem Handles.after_expiry {α : Type} {f : Instant → Handling α} {k : Option Instant → Work α}
    (length : Option Duration)
    (h : ∀ now, Handles id (fun _ => f now) (k (length.map now.expiresIn))) :
    Handles id f
      ((length.mapM fun length => do pure ((← Work.now).expiresIn length)) >>= k) := by
  cases length with
  | none =>
      intro s log hopen
      refine (h .origin s log hopen).mono fun log result ⟨hopen, hends⟩ => ⟨hopen, ?_⟩
      rcases hends with hfailed | ⟨seen, _, hseen, hends⟩
      · exact .inl hfailed
      · exact .inr ⟨seen, .origin, hseen, hends⟩
  | some length => exact Handles.after_now (k := fun now => k (some (now.expiresIn length))) h

theorem settles_addTo {t : Tracked} {found : Option Counter}
    (hfound : t.decode Counter id = .ok found) (delta : Int) (expiresAt : Option Instant) :
    Settles id t (fun _ => .revise (Tracked.add id delta expiresAt))
      (addTo id delta expiresAt found) := by
  rintro s log hopen rfl
  obtain ⟨t, writes, hadd, hstart⟩ := start_addTo hfound delta expiresAt
  rw [hstart]
  refine ⟨hopen, .origin, ?_⟩
  simp only [Handling.revise, hadd]
  exact .amended (s.amends_amend id t writes)

theorem handles_addTo (id : DocId) (delta : Int) (length : Option Duration) :
    Handles id (fun now => .revise (Tracked.add id delta (length.map now.expiresIn))) (do
      let expiresAt ← length.mapM fun length => do pure ((← Work.now).expiresIn length)
      let found ← load Counter id
      addTo id delta expiresAt found) := by
  refine Handles.after_expiry length fun now => ?_
  have hk : ∀ seen found t writes,
      Handling.load Counter id seen = (.ok found, t, writes) → Settles id t
        (fun _ => .revise (Tracked.add id delta (length.map now.expiresIn)))
        (addTo id delta (length.map now.expiresIn) found) := by
    intro seen found t writes hload
    obtain ⟨hdecode, rest⟩ := Prod.mk.inj hload
    obtain ⟨rfl, _⟩ := Prod.mk.inj rest
    exact settles_addTo hdecode delta _
  refine ((handles_load Counter id).bind hk).congr fun _ seen => ?_
  cases hdecode : seen.decode Counter id <;>
    simp [Handling.bind, Handling.load, Handling.revise, Tracked.add, hdecode, Bind.bind,
      Except.bind]

end Work

namespace Edit

def handling (e : Edit) (now : Instant) : Handling Unit := .revise (e.revise now)

theorem handles (e : Edit) :
    ∃ work, e.step = Step.ofWork work ∧ Work.Handles e.id e.handling work := by
  cases e with
  | expireJob id length =>
      exact ⟨_, rfl, Work.Handles.after_now fun now =>
        (Work.handles_updateExpiry _ (some (now.expiresIn length))).discard⟩
  | persistJob id => exact ⟨_, rfl, (Work.handles_updateExpiry _ none).discard⟩
  | setJobState id state => exact ⟨_, rfl, Work.handles_enter (Step.jobDocument id) state⟩
  | addToCounter key delta length =>
      exact ⟨_, Step.addToCounter_eq key delta length, Work.handles_addTo _ delta length⟩
  | addToSet key member score => exact ⟨_, rfl, Work.handles_change ScoredSet key _⟩
  | addRangeToSet key members => exact ⟨_, rfl, Work.handles_change ScoredSet key _⟩
  | removeFromSet key member => exact ⟨_, rfl, Work.handles_changeOrDelete ScoredSet key _ _⟩
  | removeSet key => exact ⟨_, rfl, Work.handles_delete _⟩
  | expireSet key length => exact ⟨_, rfl, Work.handles_expire ScoredSet _ length⟩
  | persistSet key => exact ⟨_, rfl, Work.handles_persist ScoredSet _⟩
  | appendToList key value => exact ⟨_, rfl, Work.handles_change ValueList key _⟩
  | removeFromList key value => exact ⟨_, rfl, Work.handles_changeOrDelete ValueList key _ _⟩
  | trimList key first last => exact ⟨_, rfl, Work.handles_changeOrDelete ValueList key _ _⟩
  | expireList key length => exact ⟨_, rfl, Work.handles_expire ValueList _ length⟩
  | persistList key => exact ⟨_, rfl, Work.handles_persist ValueList _⟩
  | setFields key fields => exact ⟨_, rfl, Work.handles_change FieldMap key _⟩
  | removeHash key => exact ⟨_, rfl, Work.handles_delete _⟩
  | expireHash key length => exact ⟨_, rfl, Work.handles_expire FieldMap _ length⟩
  | persistHash key => exact ⟨_, rfl, Work.handles_persist FieldMap _⟩

theorem conforms_step (e : Edit) (t : Transaction) {log : Log} (hopen : log.accepted? = none) :
    (e.step.start t).Conforms (Work.Observes t.session.store)
      (fun log result => log.accepted? = none ∧ ∃ next,
        result.2 = { t with session := next } ∧
          ((∃ failure, result.1 = .error failure ∧ next = t.session) ∨
            ∃ seen now, t.session.Glimpses log e.id seen ∧
              t.session.Yields e.id (e.handling now seen) (result.1, next))) log := by
  obtain ⟨work, hstep, hhandles⟩ := e.handles
  rw [hstep]
  change (work.start t.session >>= fun result =>
    Interaction.done (result.1, { t with session := result.2 })).Conforms _ _ _
  refine (hhandles t.session log hopen).bind fun log result ⟨hopen, hends⟩ => ?_
  refine ⟨hopen, result.2, rfl, ?_⟩
  rcases hends with ⟨failure, rfl⟩ | hhandled
  · exact .inl ⟨failure, rfl, rfl⟩
  · exact .inr hhandled

end Edit

theorem Step.conforms_commit_of_saved {allowed : Log → Request → Prop} {log : Log}
    {t : Transaction} (hnotify : ∀ log signal, allowed log (.notify signal))
    (hperform : ∀ log action, allowed log (.perform action))
    (hsaved : (Work.saveChanges.start t.session).Conforms allowed (fun _ _ => True) log) :
    (Step.commit.start t).Conforms allowed (fun _ _ => True) log := by
  have hactions : ∀ actions log,
      (Step.runAll actions).Conforms allowed (fun _ _ => True) log := by
    intro actions
    induction actions with
    | nil => exact fun _ => trivial
    | cons action rest ih =>
        intro log
        cases action with
        | wake signal => exact ⟨hnotify log signal, fun _ => ih _⟩
        | perform action => exact ⟨hperform log action, fun _ => ih _⟩
  rw [start_commit]
  refine hsaved.bind fun log result _ => ?_
  obtain ⟨result, next⟩ := result
  cases result with
  | error e => trivial
  | ok _ => exact (hactions t.afterCommit log).bind fun _ _ _ => trivial

/-- A transaction as it is built: operation by operation, each chosen in view of the earlier
results, until the transaction is committed or dropped. -/
inductive TransactionPlan
  | drop
  | commit
  | perform (op : Operation) (next : Except StoreError Unit → TransactionPlan)

namespace TransactionPlan

structure Settlement where
  done : List Operation
  result : Option (Except StoreError Unit)

def program : TransactionPlan → Transaction → List Operation → Program Settlement
  | drop, _, done => pure ⟨done, none⟩
  | commit, t, done => do
    let (result, _) ← Step.commit.start t
    pure ⟨done, some result⟩
  | perform op next, t, done => do
    let (result, t) ← op.step.start t
    (next result).program t (if result.isOk then done ++ [op] else done)

def All (admits : Operation → Prop) : TransactionPlan → Prop
  | drop => True
  | commit => True
  | perform op next => admits op ∧ ∀ result, (next result).All admits

theorem conforms {allowed : Log → Request → Prop} {ends : Log → Settlement → Prop}
    {admits : Operation → Prop} (inv : Log → List Operation → Transaction → Prop)
    (hdrop : ∀ log done t, inv log done t → ends log ⟨done, none⟩)
    (hcommit : ∀ log done t, inv log done t →
      (Step.commit.start t).Conforms allowed (fun log result => ends log ⟨done, some result.1⟩) log)
    (hperform : ∀ op, admits op → ∀ log done t, inv log done t →
      (op.step.start t).Conforms allowed (fun log result =>
        inv log (if result.1.isOk then done ++ [op] else done) result.2) log)
    {plan : TransactionPlan} (hplan : plan.All admits) {log : Log} {done : List Operation}
    {t : Transaction} (hinv : inv log done t) :
    (plan.program t done).Conforms allowed ends log := by
  induction plan generalizing log done t with
  | drop => exact hdrop log done t hinv
  | commit => exact (hcommit log done t hinv).bind fun _ _ hends => hends
  | perform op next ih =>
      refine (hperform op hplan.1 log done t hinv).bind fun log result hnext => ?_
      exact ih result.1 (hplan.2 result.1) hnext

end TransactionPlan

end Jobyard
