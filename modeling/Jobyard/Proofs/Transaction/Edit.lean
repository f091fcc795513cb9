import Jobyard.Proofs.Queue.Produce
import Jobyard.Proofs.Session.Sight
import Jobyard.Transaction.Collection

/-!
The edits of a transaction as data. An edit concerns one document; in a calm world its step is a
function of what the session holds of the document.
-/

namespace Jobyard

namespace Tracked

def change (α : Type) [FindOrCreate α] (id : DocId) (f : α → α) (t : Tracked) :
    Except StoreError Tracked := do
  let (document, t) ← t.fill α id
  .ok (t.hold (Document.encode (f document)))

def changeOrDrop (α : Type) [FindOrCreate α] (id : DocId) (f : α → α) (isEmpty : α → Bool)
    (t : Tracked) : Except StoreError Tracked := do
  let (document, t) ← t.fill α id
  .ok (if isEmpty (f document) then t.drop else t.hold (Document.encode (f document)))

def fillAndDate (α : Type) [FindOrCreate α] (id : DocId) (expiresAt : Option Instant)
    (t : Tracked) : Except StoreError Tracked := do
  let (_, t) ← t.fill α id
  .ok (t.date expiresAt)

def dateIfPresent (expiresAt : Option Instant) (t : Tracked) : Tracked :=
  if t.isPresent then t.date expiresAt else t

def enter (id : DocId) (state : JobState) (now : Instant) (t : Tracked) :
    Except StoreError Tracked := do
  match ← t.decode Job id with
  | none => .error (.missing id)
  | some job => .ok (t.hold (Document.encode (job.enter state now)))

def count (t : Tracked) (value : Int) (expiresAt : Option Instant) : Tracked :=
  match expiresAt with
  | some time => (t.hold (Document.encode (Counter.mk value))).date (some time)
  | none => t.hold (Document.encode (Counter.mk value))

/-- A counter that the store has is left to an increment of the store. -/
def add (id : DocId) (delta : Int) (expiresAt : Option Instant) (t : Tracked) :
    Except StoreError (Tracked × List Write) := do
  match ← t.decode Counter id with
  | some counter =>
    if t.etag.isNone then .ok (t.count (counter.value + delta) expiresAt, [])
    else .ok (t, [.increment id Counter.field delta expiresAt])
  | none => .ok (t.count delta expiresAt, [])

end Tracked

namespace Session

def amend (s : Session) (id : DocId) (t : Tracked) (writes : List Write) : Session :=
  { s.track id t with deferred := s.deferred ++ writes }

theorem amend_nil (s : Session) (id : DocId) (t : Tracked) : s.amend id t [] = s.track id t := by
  simp [amend, track]

theorem find?_amend (s : Session) (id other : DocId) (t : Tracked) (writes : List Write) :
    (s.amend id t writes).find? other = if other = id then some t else s.find? other :=
  find?_track s id other t

theorem amend_track (s : Session) (id : DocId) (t u : Tracked) (writes : List Write) :
    (s.track id t).amend id u writes = s.amend id u writes := by
  unfold amend
  rw [track_track]
  rfl

end Session

inductive Edit
  | expireJob (id : JobId) (length : Duration)
  | persistJob (id : JobId)
  | setJobState (id : JobId) (state : JobState)
  | addToCounter (key : String) (delta : Int) (length : Option Duration)
  | addToSet (key member : String) (score : Double)
  | addRangeToSet (key : String) (members : List String)
  | removeFromSet (key member : String)
  | removeSet (key : String)
  | expireSet (key : String) (length : Duration)
  | persistSet (key : String)
  | appendToList (key value : String)
  | removeFromList (key value : String)
  | trimList (key : String) (first last : Nat)
  | expireList (key : String) (length : Duration)
  | persistList (key : String)
  | setFields (key : String) (fields : List (String × String))
  | removeHash (key : String)
  | expireHash (key : String) (length : Duration)
  | persistHash (key : String)

namespace Edit

def step : Edit → Step Unit
  | expireJob id length => Step.expireJob id length
  | persistJob id => Step.persistJob id
  | setJobState id state => Step.setJobState id state
  | addToCounter key delta length => Step.addToCounter key delta length
  | addToSet key member score => Step.addToSet key member score
  | addRangeToSet key members => Step.addRangeToSet key members
  | removeFromSet key member => Step.removeFromSet key member
  | removeSet key => Step.remove ScoredSet key
  | expireSet key length => Step.expire ScoredSet key length
  | persistSet key => Step.persist ScoredSet key
  | appendToList key value => Step.appendToList key value
  | removeFromList key value => Step.removeFromList key value
  | trimList key first last => Step.trimList key first last
  | expireList key length => Step.expire ValueList key length
  | persistList key => Step.persist ValueList key
  | setFields key fields => Step.setFields key fields
  | removeHash key => Step.remove FieldMap key
  | expireHash key length => Step.expire FieldMap key length
  | persistHash key => Step.persist FieldMap key

def id : Edit → DocId
  | expireJob id _ | persistJob id | setJobState id _ => Step.jobDocument id
  | addToCounter key _ _ => Document.idFor Counter key
  | addToSet key _ _ | addRangeToSet key _ | removeFromSet key _ | removeSet key | expireSet key _
  | persistSet key => Document.idFor ScoredSet key
  | appendToList key _ | removeFromList key _ | trimList key _ _ | expireList key _
  | persistList key => Document.idFor ValueList key
  | setFields key _ | removeHash key | expireHash key _ | persistHash key =>
    Document.idFor FieldMap key

/-- Edits that delete a document without asking the store for it. -/
def isRemoval : Edit → Bool
  | removeSet _ | removeHash _ => true
  | _ => false

/-- What an edit makes of what a session holds, and the writes that it defers. -/
def revise (now : Instant) (e : Edit) (t : Tracked) : Except StoreError (Tracked × List Write) :=
  match e with
  | expireJob _ length => .ok (t.dateIfPresent (some (now.expiresIn length)), [])
  | persistJob _ => .ok (t.dateIfPresent none, [])
  | setJobState _ state => (t.enter e.id state now).map (·, [])
  | addToCounter _ delta length => t.add e.id delta (length.map now.expiresIn)
  | addToSet _ member score =>
    (t.change ScoredSet e.id fun s => ⟨s.scores.insert member score⟩).map (·, [])
  | addRangeToSet _ members =>
    (t.change ScoredSet e.id fun s =>
      ⟨s.scores.insertMany (members.map fun member => (member, Double.zero))⟩).map (·, [])
  | removeFromSet _ member =>
    (t.changeOrDrop ScoredSet e.id (fun s => ⟨s.scores.erase member⟩)
      fun s => s.scores.isEmpty).map (·, [])
  | removeSet _ | removeHash _ => .ok (t.drop, [])
  | expireSet _ length =>
    (t.fillAndDate ScoredSet e.id (some (now.expiresIn length))).map (·, [])
  | persistSet _ => (t.fillAndDate ScoredSet e.id none).map (·, [])
  | appendToList _ value =>
    (t.change ValueList e.id fun l => ⟨l.values ++ [value]⟩).map (·, [])
  | removeFromList _ value =>
    (t.changeOrDrop ValueList e.id (fun l => ⟨l.values.filter (· ≠ value)⟩)
      fun l => l.values.isEmpty).map (·, [])
  | trimList _ first last =>
    (t.changeOrDrop ValueList e.id (fun l => l.trim first last)
      fun l => l.values.isEmpty).map (·, [])
  | expireList _ length =>
    (t.fillAndDate ValueList e.id (some (now.expiresIn length))).map (·, [])
  | persistList _ => (t.fillAndDate ValueList e.id none).map (·, [])
  | setFields _ fields =>
    (t.change FieldMap e.id fun h => ⟨h.fields.insertMany fields⟩).map (·, [])
  | expireHash _ length =>
    (t.fillAndDate FieldMap e.id (some (now.expiresIn length))).map (·, [])
  | persistHash _ => (t.fillAndDate FieldMap e.id none).map (·, [])

/-- What an edit starts from: a removal does not ask the store. -/
def sight (e : Edit) (m : Memory) (s : Session) : Tracked :=
  if e.isRemoval then (s.find? e.id).getD .unasked else s.seen m e.id

def act (now : Instant) (m : Memory) (e : Edit) (s : Session) : Except StoreError Unit × Session :=
  match e.revise now (e.sight m s) with
  | .ok (t, writes) =>
    (.ok (), s.amend e.id t writes)
  | .error failure => (.error failure, s.track e.id (e.sight m s))

theorem store_act (e : Edit) (now : Instant) (m : Memory) (s : Session) :
    (e.act now m s).2.store = s.store := by
  unfold act
  split <;> rfl

theorem find?_act (e : Edit) (now : Instant) (m : Memory) (s : Session) {id : DocId}
    (hne : id ≠ e.id) : (e.act now m s).2.find? id = s.find? id := by
  unfold act
  split
  · exact (s.find?_amend e.id id _ _).trans (if_neg hne)
  · exact (s.find?_track e.id id _).trans (if_neg hne)

end Edit

namespace Work

def makeCounter (id : DocId) (value : Int) (expiresAt : Option Instant) : Work Unit := do
  save id (Counter.mk value)
  match expiresAt with
  | some time => discard (setExpiry id time)
  | none => pure ()

def addTo (id : DocId) (delta : Int) (expiresAt : Option Instant) (found : Option Counter) :
    Work Unit :=
  match found with
  | some counter => do
    if (← get).isNew id then makeCounter id (counter.value + delta) expiresAt
    else modify fun s => s.defer (.increment id Counter.field delta expiresAt)
  | none => makeCounter id delta expiresAt

theorem start_makeCounter (s : Session) (id : DocId) (value : Int) (expiresAt : Option Instant) :
    start (makeCounter id value expiresAt) s =
      .done (.ok (), s.track id (((s.find? id).getD .unasked).count value expiresAt)) := by
  unfold makeCounter
  rw [start_bind]
  change start _ (s.put id (Document.encode (Counter.mk value))) = _
  rw [Session.put_eq_track]
  cases expiresAt with
  | none => rfl
  | some time =>
      change start (updateExpiry id (some time) >>= fun _ => pure ()) _ = _
      rw [start_bind, start_updateExpiry_track (Tracked.isPresent_hold _ _)]
      rfl

theorem start_addTo {s : Session} {id : DocId} {found : Option Counter}
    (hfound : ((s.find? id).getD .unasked).decode Counter id = .ok found) (delta : Int)
    (expiresAt : Option Instant) :
    ∃ t writes, ((s.find? id).getD .unasked).add id delta expiresAt = .ok (t, writes) ∧
      start (addTo id delta expiresAt found) s = .done (.ok (), s.amend id t writes) := by
  unfold Tracked.add addTo
  rw [hfound]
  cases found with
  | none =>
      refine ⟨_, [], rfl, ?_⟩
      rw [Session.amend_nil]
      exact start_makeCounter s id delta expiresAt
  | some counter =>
      have hnew := Session.isNew_eq (Tracked.isPresent_of_decode hfound)
      simp only
      rw [start_bind, start_get, Interaction.done_bind]
      simp only [hnew]
      cases hetag : ((s.find? id).getD .unasked).etag with
      | none =>
          refine ⟨_, [], rfl, ?_⟩
          rw [Session.amend_nil]
          exact start_makeCounter s id _ expiresAt
      | some etag =>
          have htracked : s.find? id = some ((s.find? id).getD .unasked) := by
            cases hseen : s.find? id with
            | some t => rfl
            | none =>
                rw [hseen] at hetag
                cases hetag
          refine ⟨_, [.increment id Counter.field delta expiresAt], rfl, ?_⟩
          unfold Session.amend
          rw [Session.track_of_find? htracked]
          rfl

end Work

theorem Step.addToCounter_eq (key : String) (delta : Int) (length : Option Duration) :
    Step.addToCounter key delta length = Step.ofWork (do
      let expiresAt ← length.mapM fun length => do pure ((← Work.now).expiresIn length)
      let found ← Work.load Counter (Document.idFor Counter key)
      Work.addTo (Document.idFor Counter key) delta expiresAt found) := rfl

namespace Simulation.World

variable {w : World}

/-- Work that asks for one document and changes what the session holds of it. -/
def Revises (w : World) (s : Session) (id : DocId) (work : Work Unit)
    (f : Tracked → Except StoreError Tracked) : Prop :=
  w.run (work.start s) =
    match f (s.seen (w.memory s.store) id) with
    | .ok t => ((.ok (), s.track id t), w)
    | .error e => ((.error e, s.track id (s.seen (w.memory s.store) id)), w)

theorem Revises.of_run_eq {s : Session} {id : DocId} {work other : Work Unit}
    {f : Tracked → Except StoreError Tracked} (h : w.Revises s id other f)
    (hsame : w.run (work.start s) = w.run (other.start s)) : w.Revises s id work f :=
  hsame.trans h

theorem revises_change (hcalm : w.Calm) (s : Session) (α : Type) [FindOrCreate α] (key : String)
    (f : α → α) :
    w.Revises s (Document.idFor α key) (Work.change α key f)
      (Tracked.change α (Document.idFor α key) f) := by
  have hload := run_loadOrBlank hcalm α s (Document.idFor α key)
  unfold Revises Work.change Tracked.change
  cases hfill : (s.seen (w.memory s.store) (Document.idFor α key)).fill α
      (Document.idFor α key) with
  | error e =>
      rw [hfill] at hload
      exact run_start_bind_error hload _
  | ok filled =>
      rw [hfill] at hload
      rw [run_start_bind hload, run_save]
      rfl

theorem revises_changeOrDelete (hcalm : w.Calm) (s : Session) (α : Type) [FindOrCreate α]
    (key : String) (f : α → α) (isEmpty : α → Bool) :
    w.Revises s (Document.idFor α key) (Work.changeOrDelete α key f isEmpty)
      (Tracked.changeOrDrop α (Document.idFor α key) f isEmpty) := by
  have hload := run_loadOrBlank hcalm α s (Document.idFor α key)
  unfold Revises Work.changeOrDelete Tracked.changeOrDrop
  cases hfill : (s.seen (w.memory s.store) (Document.idFor α key)).fill α
      (Document.idFor α key) with
  | error e =>
      rw [hfill] at hload
      exact run_start_bind_error hload _
  | ok filled =>
      obtain ⟨document, t⟩ := filled
      rw [hfill] at hload
      rw [run_start_bind hload]
      simp only
      cases hempty : isEmpty (f document) with
      | true =>
          rw [if_pos rfl, run_delete]
          simp only [bind, Except.bind, hempty, if_true]
      | false =>
          rw [if_neg Bool.false_ne_true, run_save]
          simp only [bind, Except.bind, hempty, Bool.false_eq_true, if_false]

theorem revises_fillAndDate (hcalm : w.Calm) (s : Session) (α : Type) [FindOrCreate α]
    (id : DocId) (work : Work Unit) (expiresAt : Option Instant)
    (hwork : ∀ s, w.run (work.start s) =
      w.run ((discard (Work.updateExpiry id expiresAt)).start s)) :
    w.Revises s id
      (do
        discard (Work.loadOrBlank α id)
        work)
      (Tracked.fillAndDate α id expiresAt) := by
  have hload := run_loadOrBlank hcalm α s id
  unfold Revises Tracked.fillAndDate
  cases hfill : (s.seen (w.memory s.store) id).fill α id with
  | error e =>
      rw [hfill] at hload
      exact run_start_bind_error (run_discard_error hload) _
  | ok filled =>
      obtain ⟨document, t⟩ := filled
      rw [hfill] at hload
      have hseen : (s.track id t).seen (w.memory (s.track id t).store) id = t := by
        simp [Session.seen, Session.find?_track_self]
      rw [run_start_bind (run_discard hload), hwork,
        run_discard (run_updateExpiry hcalm (s.track id t) id expiresAt), hseen,
        if_pos (Tracked.isPresent_of_fill hfill), Session.track_track]
      rfl

theorem revises_dateIfPresent (hcalm : w.Calm) (s : Session) (id : DocId)
    (expiresAt : Option Instant) :
    w.Revises s id (discard (Work.updateExpiry id expiresAt))
      (fun t => .ok (t.dateIfPresent expiresAt)) :=
  run_discard (run_updateExpiry hcalm s id expiresAt)

theorem revises_enter (hcalm : w.Calm) (s : Session) (id : DocId) (state : JobState) :
    w.Revises s id
      (do
        match ← Work.load Job id with
        | none => throw (.missing id)
        | some job =>
          let now ← Work.now
          Work.save id (job.enter state now))
      (Tracked.enter id state w.clock) := by
  have hload := run_load hcalm Job s id
  unfold Revises Tracked.enter
  cases hdecode : (s.seen (w.memory s.store) id).decode Job id with
  | error e =>
      rw [hdecode] at hload
      exact run_start_bind_error hload _
  | ok found =>
      rw [hdecode] at hload
      rw [run_start_bind hload]
      cases found with
      | none => rfl
      | some job =>
          simp only
          rw [run_start_bind (run_now w _), run_save]
          rfl

theorem run_ofWork {work : Work Unit} {t : Transaction} {result : Except StoreError Unit}
    {s : Session} {after : World} (h : w.run (work.start t.session) = ((result, s), after)) :
    w.run ((Step.ofWork work).start t) = ((result, { t with session := s }), after) := by
  change w.run (work.start t.session >>= fun result =>
    Interaction.done (result.1, { t with session := result.2 })) = _
  rw [run_bind, h]
  rfl

theorem run_addToCounter (hcalm : w.Calm) (t : Transaction) (key : String) (delta : Int)
    (length : Option Duration) :
    w.run ((Step.addToCounter key delta length).start t) =
      ((((Edit.addToCounter key delta length).act w.clock (w.memory t.session.store) t.session).1,
        { t with session := ((Edit.addToCounter key delta length).act w.clock
          (w.memory t.session.store) t.session).2 }), w) := by
  have hexpiry : w.run (Work.start (length.mapM fun length => do
      pure ((← Work.now).expiresIn length)) t.session) =
        ((.ok (length.map w.clock.expiresIn), t.session), w) := by
    cases length <;> rfl
  have hload := run_load hcalm Counter t.session (Document.idFor Counter key)
  rw [Step.addToCounter_eq]
  apply run_ofWork
  rw [run_start_bind hexpiry]
  simp only [Edit.act, Edit.revise, Edit.sight, Edit.isRemoval, Bool.false_eq_true, if_false,
    Edit.id]
  generalize t.session.seen (w.memory t.session.store) (Document.idFor Counter key) = seen at hload
  cases hdecode : seen.decode Counter (Document.idFor Counter key) with
  | error e =>
      rw [hdecode] at hload
      unfold Tracked.add
      rw [hdecode]
      exact run_start_bind_error hload _
  | ok found =>
      rw [hdecode] at hload
      have hseen : ((t.session.track (Document.idFor Counter key) seen).find?
          (Document.idFor Counter key)).getD .unasked = seen := by
        rw [Session.find?_track_self, Option.getD_some]
      rw [← hseen] at hdecode
      obtain ⟨next, writes, hadd, hstart⟩ :=
        Work.start_addTo hdecode delta (length.map w.clock.expiresIn)
      rw [hseen] at hadd
      rw [run_start_bind hload, hstart, hadd, Session.amend_track]
      rfl

theorem run_of_revises {work : Work Unit} {f : Tracked → Except StoreError Tracked} {e : Edit}
    {t : Transaction} (hasks : e.isRemoval = false)
    (hrevise : ∀ seen, e.revise w.clock seen = (f seen).map (·, []))
    (h : w.Revises t.session e.id work f) :
    w.run ((Step.ofWork work).start t) =
      (((e.act w.clock (w.memory t.session.store) t.session).1,
        { t with session := (e.act w.clock (w.memory t.session.store) t.session).2 }), w) := by
  apply run_ofWork
  rw [h]
  simp only [Edit.act, Edit.sight, hasks, Bool.false_eq_true, if_false, hrevise]
  cases f (t.session.seen (w.memory t.session.store) e.id) with
  | error failure => rfl
  | ok next => simp [Except.map, Session.amend_nil]

theorem run_remove (α : Type) [Document α] {key : String} {e : Edit} (hremoval : e.isRemoval)
    (hid : e.id = Document.idFor α key)
    (hrevise : ∀ seen, e.revise w.clock seen = .ok (seen.drop, [])) (t : Transaction) :
    w.run ((Step.remove α key).start t) =
      (((e.act w.clock (w.memory t.session.store) t.session).1,
        { t with session := (e.act w.clock (w.memory t.session.store) t.session).2 }), w) := by
  apply run_ofWork
  simp only [Edit.act, Edit.sight, hremoval, if_true, hrevise, Session.amend_nil]
  rw [hid]
  change ((_, t.session.delete (Document.idFor α key)), w) = _
  rw [Session.delete_eq_track]

theorem run_edit (hcalm : w.Calm) (e : Edit) (t : Transaction) :
    w.run (e.step.start t) =
      (((e.act w.clock (w.memory t.session.store) t.session).1,
        { t with session := (e.act w.clock (w.memory t.session.store) t.session).2 }), w) := by
  have hdate : ∀ (id : DocId) (length : Duration) (s : Session),
      w.run (Work.start (do
        let now ← Work.now
        discard (Work.setExpiry id (now.expiresIn length))) s) =
      w.run ((discard (Work.updateExpiry id (some (w.clock.expiresIn length)))).start s) :=
    fun id length s => run_start_bind (run_now w s) _
  cases e with
  | expireJob id length =>
      have hrevises := revises_dateIfPresent hcalm t.session (Step.jobDocument id)
        (some (w.clock.expiresIn length))
      exact run_of_revises rfl (fun _ => rfl) (hrevises.of_run_eq (hdate _ length _))
  | persistJob id => exact run_of_revises rfl (fun _ => rfl) (revises_dateIfPresent hcalm _ _ _)
  | setJobState id state => exact run_of_revises rfl (fun _ => rfl) (revises_enter hcalm _ _ state)
  | addToCounter key delta length => exact run_addToCounter hcalm t key delta length
  | addToSet key member score =>
      exact run_of_revises rfl (fun _ => rfl) (revises_change hcalm _ _ key _)
  | addRangeToSet key members =>
      exact run_of_revises rfl (fun _ => rfl) (revises_change hcalm _ _ key _)
  | removeFromSet key member =>
      exact run_of_revises rfl (fun _ => rfl) (revises_changeOrDelete hcalm _ _ key _ _)
  | removeSet key => exact run_remove ScoredSet rfl rfl (fun _ => rfl) t
  | expireSet key length =>
      exact run_of_revises rfl (fun _ => rfl) (revises_fillAndDate hcalm _ _ _ _ _ (hdate _ length))
  | persistSet key =>
      exact run_of_revises rfl (fun _ => rfl) (revises_fillAndDate hcalm _ _ _ _ _ fun _ => rfl)
  | appendToList key value =>
      exact run_of_revises rfl (fun _ => rfl) (revises_change hcalm _ _ key _)
  | removeFromList key value =>
      exact run_of_revises rfl (fun _ => rfl) (revises_changeOrDelete hcalm _ _ key _ _)
  | trimList key first last =>
      exact run_of_revises rfl (fun _ => rfl) (revises_changeOrDelete hcalm _ _ key _ _)
  | expireList key length =>
      exact run_of_revises rfl (fun _ => rfl) (revises_fillAndDate hcalm _ _ _ _ _ (hdate _ length))
  | persistList key =>
      exact run_of_revises rfl (fun _ => rfl) (revises_fillAndDate hcalm _ _ _ _ _ fun _ => rfl)
  | setFields key fields =>
      exact run_of_revises rfl (fun _ => rfl) (revises_change hcalm _ _ key _)
  | removeHash key => exact run_remove FieldMap rfl rfl (fun _ => rfl) t
  | expireHash key length =>
      exact run_of_revises rfl (fun _ => rfl) (revises_fillAndDate hcalm _ _ _ _ _ (hdate _ length))
  | persistHash key =>
      exact run_of_revises rfl (fun _ => rfl) (revises_fillAndDate hcalm _ _ _ _ _ fun _ => rfl)

end Simulation.World

end Jobyard
