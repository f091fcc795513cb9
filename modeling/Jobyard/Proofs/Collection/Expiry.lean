import Jobyard.Connection.Collection
import Jobyard.Proofs.Simulation.Trail
import Jobyard.Proofs.Store.Purge
import Jobyard.Proofs.Time.Expiry
import Jobyard.Proofs.Transaction.Retention

/-!
The expiry of sets, lists and hashes. A transaction that sets or removes it leaves what the
collection holds, and until the next one does so the time left is told and the collection is reaped
by the same point of time, whatever other transactions add to it.
-/

namespace Jobyard

inductive CollectionKind
  | set
  | list
  | hash
deriving DecidableEq

namespace CollectionKind

def id : CollectionKind → String → DocId
  | set, key => Document.idFor ScoredSet key
  | list, key => Document.idFor ValueList key
  | hash, key => Document.idFor FieldMap key

def blank : CollectionKind → Json
  | set => Document.encode (FindOrCreate.blank : ScoredSet)
  | list => Document.encode (FindOrCreate.blank : ValueList)
  | hash => Document.encode (FindOrCreate.blank : FieldMap)

def isLegible (body : Json) : CollectionKind → Bool
  | set => (Document.decode? body : Option ScoredSet).isSome
  | list => (Document.decode? body : Option ValueList).isSome
  | hash => (Document.decode? body : Option FieldMap).isSome

def dating : CollectionKind → String → Option Duration → Edit
  | set, key, some length => .expireSet key length
  | list, key, some length => .expireList key length
  | hash, key, some length => .expireHash key length
  | set, key, none => .persistSet key
  | list, key, none => .persistList key
  | hash, key, none => .persistHash key

def timeLeft (c : Connection) : CollectionKind → String → Action (Option Span)
  | set, key => c.timeLeft ScoredSet key
  | list, key => c.timeLeft ValueList key
  | hash, key => c.timeLeft FieldMap key

variable {kind : CollectionKind} {key : String} {length : Option Duration}

theorem isCollection_id (kind : CollectionKind) (key : String) : (kind.id key).IsCollection := by
  cases kind <;> exact ⟨of_decide_eq_false rfl, of_decide_eq_false rfl⟩

theorem id_dating : (kind.dating key length).id = kind.id key := by
  cases kind <;> cases length <;> rfl

theorem fillAndDate_expiresAt {α : Type} [FindOrCreate α] {id : DocId} {expiresAt : Option Instant}
    {t next : Tracked} {writes : List Write}
    (h : (t.fillAndDate α id expiresAt).map (·, ([] : List Write)) = .ok (next, writes)) :
    next.expiresAt = expiresAt ∧ next.status = .dirty := by
  unfold Tracked.fillAndDate at h
  cases hfill : t.fill α id with
  | error failure =>
      rw [hfill] at h
      cases h
  | ok filled =>
      rw [hfill] at h
      cases h
      exact ⟨rfl, rfl⟩

theorem revise_dating {now : Instant} {t next : Tracked} {writes : List Write}
    (h : (kind.dating key length).revise now t = .ok (next, writes)) :
    next.expiresAt = length.map now.expiresIn ∧ next.status = .dirty := by
  cases kind <;> cases length <;> exact fillAndDate_expiresAt h

theorem filled_of_legible {α : Type} [FindOrCreate α] {id : DocId} {body : Option Json}
    (h : ∀ content, body = some content → (Document.decode? content : Option α).isSome) :
    (do
      let _ ← Document.read α id body
      .ok (some (body.getD (Document.encode (FindOrCreate.blank : α)))) :
        Except StoreError (Option Json)) =
      .ok (some (body.getD (Document.encode (FindOrCreate.blank : α)))) := by
  cases body with
  | none => rfl
  | some content =>
      obtain ⟨document, hdocument⟩ := Option.isSome_iff_exists.mp (h content rfl)
      simp only [Document.read, hdocument]
      rfl

theorem apply_dating {now : Instant} {c : Option Content}
    (h : ∀ content, c = some content → kind.isLegible content.body) :
    (kind.dating key length).apply now c =
      .ok (some ⟨(c.map (·.body)).getD kind.blank, length.map now.expiresIn⟩) := by
  have hbody : ∀ body, c.map (·.body) = some body → kind.isLegible body := by
    intro body hsome
    obtain ⟨content, hcontent, rfl⟩ := Option.map_eq_some_iff.mp hsome
    exact h content hcontent
  have halter : (kind.dating key length).alter now (c.map (·.body)) =
      .ok (some ((c.map (·.body)).getD kind.blank)) := by
    cases kind <;> cases length <;> exact filled_of_legible hbody
  have hdated : (kind.dating key length).dated now = some (length.map now.expiresIn) := by
    cases kind <;> cases length <;> rfl
  unfold Edit.apply
  rw [halter, hdated]
  rfl

end CollectionKind

namespace Memory

variable {m next : Memory} {batch : Batch} {id : DocId} {expiresAt : Option Instant} {lasts : Prop}
  {d : Stored}

theorem outcome_retains {w : Write} {document : Option Stored} {before after : Nat}
    (hretains : w.Retains expiresAt lasts) (hd : d.expiresAt = expiresAt)
    (h : outcome w (some d) before = .ok (document, after)) :
    (∃ kept, document = some kept ∧ kept.expiresAt = expiresAt) ∨ document = none ∧ ¬ lasts := by
  cases w with
  | put id body date expected =>
      obtain ⟨made, rfl, _, hmade⟩ := outcome_put h
      rcases hretains with rfl | rfl
      · simp [outcome, Expected.accepts] at h
      · exact .inl ⟨made, rfl, hmade⟩
  | delete id expected => exact .inr ⟨outcome_delete h, hretains⟩
  | increment => cases hretains

theorem find?_commit_of_retains (hcommit : m.commit batch = .ok next)
    (hbatch : batch.Retains id expiresAt lasts) (hfound : m.find? id = some d)
    (hd : d.expiresAt = expiresAt) :
    (∃ kept, next.find? id = some kept ∧ kept.expiresAt = expiresAt) ∨
      next.find? id = none ∧ ¬ lasts := by
  obtain ⟨write, hfilter, hretains⟩ := hbatch
  have hrewrites := rewrites_of_commit hcommit id
  rw [hfilter, hfound] at hrewrites
  cases write with
  | none => exact .inl ⟨d, rewrites_nil hrewrites, hd⟩
  | some w =>
      obtain ⟨_, _, houtcome⟩ := rewrites_singleton hrewrites
      exact outcome_retains (hretains w rfl) hd houtcome

end Memory

namespace Simulation

structure TransactionTask where
  connection : Connection
  plan : TransactionPlan

def TransactionTask.program (task : TransactionTask) : Program TransactionPlan.Settlement :=
  task.plan.program task.connection.transaction []

/-- A transaction at a store that leaves the expiry of a document alone and, if it is to last, only
adds to it. -/
structure TransactionTask.Retains (store : StoreRef) (id : DocId) (lasts : Prop)
    (task : TransactionTask) : Prop where
  store : task.connection.store = store
  plan : task.plan.All (Operation.Retains id lasts)

def Yard.find? {τ ρ : Type} (y : Yard τ ρ) (store : StoreRef) (id : DocId) : Option Stored :=
  (y.world.memory store).find? id

abbrev TransactionYard := Yard TransactionTask TransactionPlan.Settlement

namespace TransactionYard

variable {store : StoreRef} {id : DocId} {expiresAt : Option Instant} {lasts : Prop}
  {y last : TransactionYard} {event : Event TransactionTask TransactionPlan.Settlement}
  {stages : List (Stage TransactionTask TransactionPlan.Settlement)}

theorem conforms_task (hid : id.IsCollection) {task : TransactionTask}
    (htask : task.Retains store id lasts) :
    task.program.Conforms (Retaining store id expiresAt lasts) (fun _ _ => True) [] := by
  obtain ⟨rfl, hplan⟩ := htask
  exact TransactionPlan.conforms_retaining hid hplan task.connection

structure Keeps (store : StoreRef) (id : DocId) (expiresAt : Option Instant) (lasts : Prop)
    (y : TransactionYard) : Prop where
  calm : y.world.Calm
  keyed : (y.world.memory store).Keyed
  orderly : y.Orderly (TransactionTask.Retains store id lasts)
    (fun _ => Retaining store id expiresAt lasts) fun _ _ _ => True
  stored : ∃ d, y.find? store id = some d ∧ d.expiresAt = expiresAt
  shown : ∀ n thread, y.threads n = some thread → thread.log.Dates store id expiresAt

section Turn

variable {w next : World} {log : Log} {request : Request} {reply : request.Reply}

theorem stored_of_reacts (hcalm : w.Calm) (hreacts : w.Reacts request reply next)
    (hretaining : Retaining store id expiresAt lasts log request)
    (hlog : log.Dates store id expiresAt)
    (hstored : ∃ d, (w.memory store).find? id = some d ∧ d.expiresAt = expiresAt) :
    (∃ d, (next.memory store).find? id = some d ∧ d.expiresAt = expiresAt) ∨
      (next.memory store).find? id = none ∧ ¬ lasts := by
  cases haccepted : Exchange.accepted? ⟨request, reply⟩ with
  | none =>
      left
      rcases World.memory_of_unaccepted hcalm hreacts haccepted store with
        hsame | ⟨now, limit, rfl, _⟩ | rfl
      · rwa [hsame]
      · rcases hretaining.calls store _ rfl with ⟨_, hload⟩ | ⟨_, hcommit⟩
        · cases hload
        · cases hcommit
      · rcases hretaining.calls store _ rfl with ⟨_, hload⟩ | ⟨_, hcommit⟩
        · cases hload
        · cases hcommit
  | some batch =>
      obtain ⟨target, rfl, hcommit, hothers⟩ := World.commit_of_accepted hcalm hreacts haccepted
      by_cases htarget : store = target
      · subst htarget
        obtain ⟨d, hfound, hd⟩ := hstored
        exact Memory.find?_commit_of_retains hcommit (hretaining.batch batch rfl hlog) hfound hd
      · left
        rwa [hothers store htarget]

end Turn

theorem Keeps.step (h : Keeps store id expiresAt lasts y) (hid : id.IsCollection)
    (hstep : Yard.Step TransactionTask.program (TransactionTask.Retains store id lasts) y event
      last) (hthere : lasts ∨ last.find? store id ≠ none) :
    Keeps store id expiresAt lasts last := by
  have hcalm := hstep.calm h.calm
  have hkeyed := hstep.keyed h.calm h.keyed
  have horderly := h.orderly.step (fun _ htask => conforms_task hid htask) hstep
  cases hstep with
  | clocked time => exact ⟨hcalm, hkeyed, horderly, h.stored, h.shown⟩
  | began n task hfree hadmits =>
      refine ⟨hcalm, hkeyed, horderly, h.stored, fun k other hother => ?_⟩
      rcases Yard.threads_seat_cases hother with rfl | hold
      · exact fun _ hmem => nomatch hmem
      · exact h.shown k other hold
  | proceeded n task log request next reply w hthread hreacts =>
      have hlog := h.shown n _ hthread
      obtain ⟨_, hretaining, _⟩ := h.orderly n _ hthread
      refine ⟨hcalm, hkeyed, horderly, ?_, fun k other hother => ?_⟩
      · rcases stored_of_reacts h.calm hreacts hretaining hlog h.stored with
          hstored | ⟨hgone, hfleeting⟩
        · exact hstored
        · exact absurd hgone (hthere.resolve_left hfleeting)
      · rcases Yard.threads_seat_cases hother with rfl | hold
        · refine List.forall_mem_cons.mpr ⟨fun d hloads => ?_, hlog⟩
          obtain ⟨kept, hfound, hkept⟩ := h.stored
          cases hfound.symm.trans (World.find?_of_loads h.calm hreacts hloads).1
          exact hkept
        · exact h.shown k other hold

theorem Keeps.trail (h : Keeps store id expiresAt lasts y) (hid : id.IsCollection)
    (htrail : Yard.Trail TransactionTask.program (TransactionTask.Retains store id lasts) y stages
      last) (hthere : lasts ∨ ∀ stage ∈ stages, stage.yard.find? store id ≠ none) :
    Keeps store id expiresAt lasts last ∧
      ∀ stage ∈ stages, stage.yard.find? store id ≠ none := by
  induction htrail with
  | refl => exact ⟨h, fun _ hmem => nomatch hmem⟩
  | step _ hstep ih =>
      obtain ⟨hmiddle, hstages⟩ :=
        ih (hthere.imp_right fun hall stage hmem => hall stage (List.mem_cons_of_mem _ hmem))
      have hlast := hmiddle.step hid hstep
        (hthere.imp_right fun hall => hall _ List.mem_cons_self)
      obtain ⟨d, hfound, _⟩ := hlast.stored
      refine ⟨hlast, List.forall_mem_cons.mpr ⟨?_, hstages⟩⟩
      rw [hfound]
      exact nofun

end TransactionYard

/-- A transaction that has a collection expire after a length of time, or never. -/
structure Dating where
  kind : CollectionKind
  key : String
  length : Option Duration
  before : List (Instant × Operation)
  time : Instant
  after : List (Instant × Operation)

namespace Dating

def id (u : Dating) : DocId := u.kind.id u.key

def edit (u : Dating) : Edit := u.kind.dating u.key u.length

def expiresAt (u : Dating) : Option Instant := u.length.map u.time.expiresIn

end Dating

/-- A session at a store that stands still. It looked at no other version of a collection, and
defers no write of it. -/
structure Looks (store : StoreRef) (m : Memory) (id : DocId) (s : Session) : Prop where
  store : s.store = store
  optimistic : s.optimistic = true
  distinct : s.Distinct
  deferred : ∀ w ∈ s.deferred, w.id ≠ id
  guarded : ∀ t, s.find? id = some t → t.Guarded (m.find? id)

/-- What the session holds of the collection is to be written with a certain expiry, or it is to be
deleted unless it lasts. -/
def Dated (id : DocId) (expiresAt : Option Instant) (lasts : Prop) (s : Session) : Prop :=
  ∃ t, s.find? id = some t ∧ t.expiresAt = expiresAt ∧ t.status ≠ .unchanged ∧
    (lasts → t.status = .dirty)

section Standing

variable {store : StoreRef} {m next : Memory} {id other : DocId} {expiresAt : Option Instant}
  {lasts : Prop} {s after : Session} {t : Tracked} {writes : List Write} {e : Edit} {now : Instant}

theorem looks_empty (store : StoreRef) (m : Memory) (id : DocId) :
    Looks store m id (.empty store true) :=
  ⟨rfl, rfl, Session.distinct_empty store true, fun _ h => (nomatch h), fun _ h => nomatch h⟩

theorem Looks.amend (h : Looks store m id s) (hamends : s.Amends after other t writes)
    (hwrites : ∀ w ∈ writes, w.id ≠ id) (ht : other = id → t.Guarded (m.find? id)) :
    Looks store m id after where
  store := hamends.store.trans h.store
  optimistic := hamends.optimistic.trans h.optimistic
  distinct := hamends.distinct h.distinct
  deferred w hmem := by
    rw [hamends.deferred] at hmem
    exact (List.mem_append.mp hmem).elim (h.deferred w) (hwrites w)
  guarded u hfound := by
    by_cases hid : other = id
    · have hself := hamends.self
      rw [hid, hfound, Option.getD_some] at hself
      exact hself ▸ ht hid
    · rw [hamends.others id (Ne.symm hid)] at hfound
      exact h.guarded u hfound

theorem guarded_of_sight (hs : ∀ t, s.find? e.id = some t → t.Guarded (m.find? e.id))
    (hasks : e.isRemoval = false) : (e.sight m s).Guarded (m.find? e.id) := by
  unfold Edit.sight Session.seen
  rw [hasks, if_neg Bool.false_ne_true]
  cases hfound : s.find? e.id with
  | some t => exact hs t hfound
  | none => exact Tracked.guarded_ofLoaded _

theorem guarded_of_revise (hs : ∀ t, s.find? e.id = some t → t.Guarded (m.find? e.id))
    (h : e.revise now (e.sight m s) = .ok (t, writes)) : t.Guarded (m.find? e.id) := by
  cases hremoval : e.isRemoval with
  | false => exact (Edit.succeeds_of_revise h).1.guarded (guarded_of_sight hs hremoval)
  | true =>
      cases hfound : s.find? e.id with
      | some u =>
          have hsight : e.sight m s = u := by simp [Edit.sight, hremoval, hfound]
          rw [hsight] at h
          exact (Edit.succeeds_of_revise h).1.guarded (hs u hfound)
      | none =>
          have hsight : e.sight m s = .unasked := by simp [Edit.sight, hremoval, hfound]
          rw [hsight, Edit.revise_of_isRemoval hremoval] at h
          cases h
          exact Tracked.guarded_unasked_drop _

theorem Looks.act (h : Looks store m id s) (hid : id.IsCollection) (e : Edit) (now : Instant) :
    Looks store m id (e.act now m s).2 := by
  unfold Edit.act
  cases hrevise : e.revise now (e.sight m s) with
  | ok revised =>
      refine h.amend (s.amends_amend e.id revised.1 revised.2) (hid.id_ne hrevise) ?_
      rintro rfl
      exact guarded_of_revise h.guarded hrevise
  | error failure =>
      refine h.amend (s.amends_track e.id (e.sight m s)) (fun _ hmem => nomatch hmem) ?_
      rintro rfl
      refine guarded_of_sight h.guarded (eq_false_of_ne_true fun hremoval => ?_)
      rw [Edit.revise_of_isRemoval hremoval] at hrevise
      cases hrevise

theorem Dated.act (h : Dated id expiresAt lasts s) (hid : id.IsCollection)
    (hretains : e.id = id → e.IsUndated ∧ (lasts → e.adds)) :
    Dated id expiresAt lasts (e.act now m s).2 := by
  obtain ⟨t, hfound, hexpiry, hchanged, hlasting⟩ := h
  by_cases heid : id = e.id
  · subst heid
    obtain ⟨hundated, hadds⟩ := hretains rfl
    have hsight : e.sight m s = t := by simp [Edit.sight, Session.seen, hfound]
    unfold Edit.act
    rw [hsight]
    cases hrevise : e.revise now t with
    | ok revised =>
        refine ⟨revised.1, (s.find?_amend _ _ _ _).trans (if_pos rfl), ?_, fun hstatus => ?_,
          fun hlasts => Edit.status_of_adds (hadds hlasts) hrevise⟩
        · rw [Edit.expiresAt_of_isUndated hundated (hid.isAddition rfl) hrevise, hexpiry]
        · have hsame := (Edit.succeeds_of_revise hrevise).1.unchanged hstatus
          exact hchanged (hsame ▸ hstatus)
    | error failure =>
        exact ⟨t, (s.find?_track _ _ _).trans (if_pos rfl), hexpiry, hchanged, hlasting⟩
  · exact ⟨t, (e.find?_act now m s heid).trans hfound, hexpiry, hchanged, hlasting⟩

theorem dated_of_act {u : Dating} (h : (u.edit.act u.time m s).1 = .ok ()) :
    Dated u.id u.expiresAt lasts (u.edit.act u.time m s).2 := by
  unfold Edit.act at h ⊢
  cases hrevise : u.edit.revise u.time (u.edit.sight m s) with
  | ok revised =>
      obtain ⟨hexpiry, hstatus⟩ := CollectionKind.revise_dating hrevise
      refine ⟨revised.1, (s.find?_amend _ _ _ _).trans (if_pos ?_), hexpiry, ?_, fun _ => hstatus⟩
      · exact CollectionKind.id_dating.symm
      · rw [hstatus]
        decide
  | error failure =>
      rw [hrevise] at h
      cases h

theorem expiresAt_of_commit (h : Looks store m id s) (hdated : Dated id expiresAt lasts s)
    (hcommit : m.commit s.batch = .ok next) :
    (∀ d, next.find? id = some d → d.expiresAt = expiresAt) ∧
      (lasts → next.find? id ≠ none) := by
  obtain ⟨t, hfound, hexpiry, hchanged, hlasting⟩ := hdated
  have hnone : (s.deferred.filter fun w => w.id = id) = [] :=
    List.filter_eq_nil_iff.mpr fun w hmem => by simpa using h.deferred w hmem
  have hrewrites := Session.rewrites_of_commit h.distinct hcommit id
  rw [hfound, h.optimistic, hnone, List.append_nil] at hrewrites
  have hguarded := h.guarded t hfound
  obtain ⟨hbody, hdate⟩ :=
    Tracked.written hguarded (fun hstatus => absurd hstatus hchanged) hrewrites
  refine ⟨fun d hd => by rw [hdate d hd, hexpiry], fun hlasts hgone => ?_⟩
  obtain ⟨content, hcontent⟩ := Option.isSome_iff_exists.mp (hguarded.filled (hlasting hlasts))
  rw [hgone, Tracked.body?, hcontent, hlasting hlasts] at hbody
  cases hbody

end Standing

namespace World

def performAll (w : World) (t : Transaction) : List (Instant × Operation) → Transaction × World
  | [] => (t, w)
  | (time, op) :: rest =>
    let ((_, t), w) := World.run { w with clock := time } (op.step.start t)
    w.performAll t rest

end World

def Dating.run (u : Dating) (w : World) (c : Connection) :
    (Except StoreError Unit × Except StoreError Unit) × World :=
  let (t, w) := w.performAll c.transaction u.before
  let ((dated, t), w) := World.run { w with clock := u.time } (u.edit.step.start t)
  let (t, w) := w.performAll t u.after
  let ((committed, _), w) := w.run (Step.commit.start t)
  ((dated, committed), w)

namespace World

variable {w last : World} {store : StoreRef} {m : Memory} {id : DocId}
  {t : Transaction}

theorem looks_perform (hcalm : w.Calm) (hmemory : w.memory store = m) (hid : id.IsCollection)
    (h : Looks store m id t.session) (op : Operation) :
    (w.run (op.step.start t)).2.Calm ∧ (w.run (op.step.start t)).2.memory store = m ∧
      Looks store m id (w.run (op.step.start t)).1.2.session ∧
      ∀ expiresAt lasts, op.Retains id lasts → Dated id expiresAt lasts t.session →
        Dated id expiresAt lasts (w.run (op.step.start t)).1.2.session := by
  cases op with
  | edit e =>
      have hrun : w.run ((Operation.edit e).step.start t) = _ := run_edit hcalm e t
      rw [hrun, h.store, hmemory]
      exact ⟨hcalm, rfl, h.act hid e w.clock,
        fun _ _ hretains hdated => hdated.act hid hretains⟩
  | addToQueue queue jobId =>
      have hentry : ∀ key, Document.idFor QueueEntry key ≠ id := by
        rintro key rfl
        exact hid.queueEntry rfl
      have hstart : (Operation.addToQueue queue jobId).step.start t = _ :=
        Step.start_addToQueue queue jobId t
      rw [hstart]
      refine ⟨⟨hcalm.hooks, hcalm.deadline⟩, hmemory, ?_,
        fun _ _ _ ⟨u, hfound, hdated⟩ => ⟨u, ?_, hdated⟩⟩
      · exact h.amend ((Session.amends_self _ _).put _) (fun _ hmem => nomatch hmem)
          fun hsame => absurd hsame (hentry _)
      · rw [← hfound]
        exact ((Session.amends_self _ _).put _).others id (Ne.symm (hentry _))

theorem looks_performAll (hcalm : w.Calm) (hmemory : w.memory store = m) (hid : id.IsCollection)
    (h : Looks store m id t.session) (ops : List (Instant × Operation)) :
    (w.performAll t ops).2.Calm ∧ (w.performAll t ops).2.memory store = m ∧
      Looks store m id (w.performAll t ops).1.session ∧
      ∀ expiresAt lasts, (∀ entry ∈ ops, entry.2.Retains id lasts) →
        Dated id expiresAt lasts t.session →
        Dated id expiresAt lasts (w.performAll t ops).1.session := by
  induction ops generalizing w t with
  | nil => exact ⟨hcalm, hmemory, h, fun _ _ _ hdated => hdated⟩
  | cons entry rest ih =>
      obtain ⟨time, op⟩ := entry
      have hclocked : World.Calm { w with clock := time } := ⟨hcalm.hooks, hcalm.deadline⟩
      obtain ⟨hcalm, hmemory, hlooks, hdated⟩ := looks_perform hclocked hmemory hid h op
      obtain ⟨hlast, hsame, hend, hmore⟩ := ih hcalm hmemory hlooks
      refine ⟨hlast, hsame, hend, fun expiresAt lasts hretains hstart => ?_⟩
      exact hmore expiresAt lasts (fun entry hmem => hretains entry (List.mem_cons_of_mem _ hmem))
        (hdated expiresAt lasts (hretains _ List.mem_cons_self) hstart)

theorem ok_of_run_commit (hcalm : w.Calm) (hrun : (w.run (Step.commit.start t)).1.1 = .ok ()) :
    ∃ next, (w.memory t.session.store).commit t.session.batch = .ok next ∧
      Follows w (w.run (Step.commit.start t)).2 t.session.store next := by
  cases hcommit : (w.memory t.session.store).commit t.session.batch with
  | ok next =>
      obtain ⟨committed, after, hcommitted, hfollows⟩ := run_commit hcalm hcommit
      rw [hcommitted]
      exact ⟨next, rfl, hfollows⟩
  | error failure =>
      obtain ⟨failed, after, hfailed, _⟩ := run_commit_error hcalm hcommit
      rw [hfailed] at hrun
      cases hrun

theorem dated_of_run {c : Connection} {u : Dating} {lasts : Prop} (hcalm : w.Calm)
    (hkeyed : (w.memory c.store).Keyed) (hrun : u.run w c = ((.ok (), .ok ()), last))
    (hafter : ∀ entry ∈ u.after, entry.2.Retains u.id lasts) :
    last.Calm ∧ (last.memory c.store).Keyed ∧
      (∀ d, (last.memory c.store).find? u.id = some d → d.expiresAt = u.expiresAt) ∧
      (lasts → (last.memory c.store).find? u.id ≠ none) := by
  have hid : u.id.IsCollection := u.kind.isCollection_id u.key
  obtain ⟨hbegun, hsame, hlooks, _⟩ := looks_performAll (t := c.transaction) hcalm rfl hid
    (looks_empty c.store (w.memory c.store) u.id) u.before
  unfold Dating.run at hrun
  generalize w.performAll c.transaction u.before = begun at hrun hbegun hsame hlooks
  obtain ⟨t, middle⟩ := begun
  have hclocked : World.Calm { middle with clock := u.time } := ⟨hbegun.hooks, hbegun.deadline⟩
  have hedit := run_edit hclocked u.edit t
  rw [hlooks.store, show World.memory { middle with clock := u.time } c.store = _ from hsame]
    at hedit
  simp only [hedit] at hrun
  have hgood : (u.edit.act u.time (w.memory c.store) t.session).1 = .ok () :=
    congrArg (fun r => r.1.1) hrun
  obtain ⟨hended, hmemory, hlooks, hdated⟩ := looks_performAll
    (t := { t with session := (u.edit.act u.time (w.memory c.store) t.session).2 })
    hclocked hsame hid (hlooks.act hid u.edit u.time) u.after
  have hdated := hdated u.expiresAt lasts hafter (dated_of_act hgood)
  generalize performAll _ _ u.after = ended at hrun hended hmemory hlooks hdated
  obtain ⟨t, before⟩ := ended
  obtain ⟨next, hcommit, hfollows⟩ :=
    ok_of_run_commit (t := t) hended (congrArg (fun r => r.1.2) hrun)
  have hlast : (before.run (Step.commit.start t)).2 = last := congrArg (fun r => r.2) hrun
  rw [hlast, hlooks.store] at hfollows
  rw [hlooks.store, hmemory] at hcommit
  rw [hfollows.memory]
  exact ⟨hfollows.calm hended, hkeyed.commit hcommit, expiresAt_of_commit hlooks hdated hcommit⟩

theorem run_connection_expiry (hcalm : w.Calm) (c : Connection) (id : DocId) :
    w.run (c.alone (Work.expiry id)).run =
      (.ok (((w.memory c.store).find? id).bind (·.expiresAt)), w) := by
  change w.run ((Work.alone c.store (Work.expiry id)).run) = _
  rw [Work.run_alone, run_bind, run_expiry hcalm]
  change ((Except.ok (if (Tracked.ofLoaded ((w.memory c.store).find? id)).isPresent then
    (Tracked.ofLoaded ((w.memory c.store).find? id)).expiresAt else none) : Except _ _), w) = _
  cases (w.memory c.store).find? id <;> rfl

theorem run_timeLeft (hcalm : w.Calm) (c : Connection) (kind : CollectionKind) (key : String) :
    w.run (kind.timeLeft c key).run =
      (.ok ((((w.memory c.store).find? (kind.id key)).bind (·.expiresAt)).map
        fun expiry => expiry.since w.clock), w) := by
  have htime : ∀ (α : Type) [Document α], w.run (c.timeLeft α key).run =
      (.ok ((((w.memory c.store).find? (Document.idFor α key)).bind (·.expiresAt)).map
        fun expiry => expiry.since w.clock), w) := by
    intro α _
    unfold Connection.timeLeft
    rw [run_action_bind (run_connection_expiry hcalm c _)]
    cases ((w.memory c.store).find? (Document.idFor α key)).bind (·.expiresAt) <;> rfl
  cases kind <;> exact htime _

/-- How a connection sees the expiry of a collection, and what a pass of a reaper makes of it. -/
structure Expires (w : World) (c : Connection) (kind : CollectionKind) (key : String)
    (expiresAt : Option Instant) : Prop where
  present : (w.memory c.store).find? (kind.id key) ≠ none
  timeLeft : w.run (kind.timeLeft c key).run =
    (.ok (expiresAt.map fun expiry => expiry.since w.clock), w)
  reaped : ∀ (o : Options) (rounds : Nat),
    ((w.memory c.store).expired w.clock).length / (Reaper.ofOptions c.store o).batchSize < rounds →
      ∃ count after,
        w.run ((Reaper.ofOptions c.store o).runOnce rounds).run = (.ok (some count), after) ∧
        ((after.memory c.store).find? (kind.id key) = none ↔
          ∃ expiry ∈ expiresAt, expiry.atOrBefore w.clock = true)

theorem expires_of_find? {c : Connection} {kind : CollectionKind} {key : String} {d : Stored}
    (hcalm : w.Calm) (hkeyed : (w.memory c.store).Keyed)
    (hfound : (w.memory c.store).find? (kind.id key) = some d) :
    w.Expires c kind key d.expiresAt where
  present := by
    rw [hfound]
    exact nofun
  timeLeft := by
    rw [run_timeLeft hcalm, hfound]
    rfl
  reaped o rounds hrounds := by
    have hbatch : 0 < (Reaper.ofOptions c.store o).batchSize :=
      Nat.lt_of_lt_of_le Nat.one_pos (Nat.le_max_right _ _)
    obtain ⟨after, last, hrun, hfollows, hspares⟩ :=
      run_pass (r := Reaper.ofOptions c.store o) hcalm hkeyed hbatch hrounds
    refine ⟨_, after, hrun, ?_⟩
    have hmemory : after.memory c.store = last := hfollows.memory
    have hleft := hspares.find?_eq (kind.id key)
    change _ = ((w.memory c.store).find? _).filter _ at hleft
    rw [hmemory, hleft, hfound, Option.filter_some]
    unfold Memory.isExpired
    cases d.expiresAt with
    | none => simp
    | some expiry => simp

theorem expires_of_trail {c : Connection} {u : Dating} {dated : World} {lasts : Prop}
    {stages : List (Stage TransactionTask TransactionPlan.Settlement)} {y : TransactionYard}
    (hcalm : dated.Calm) (hkeyed : (dated.memory c.store).Keyed)
    (hdated : ∀ d, (dated.memory c.store).find? u.id = some d → d.expiresAt = u.expiresAt)
    (htrail : Yard.Trail TransactionTask.program (TransactionTask.Retains c.store u.id lasts)
      ⟨dated, fun _ => none⟩ stages y)
    (hpresent : (dated.memory c.store).find? u.id ≠ none)
    (hthere : lasts ∨ ∀ stage ∈ stages, stage.yard.find? c.store u.id ≠ none) :
    y.world.Expires c u.kind u.key u.expiresAt := by
  obtain ⟨d, hfound⟩ := Option.ne_none_iff_exists'.mp hpresent
  have hstart : TransactionYard.Keeps c.store u.id u.expiresAt lasts ⟨dated, fun _ => none⟩ :=
    ⟨hcalm, hkeyed, fun _ _ h => (nomatch h), ⟨d, hfound, hdated d hfound⟩,
      fun _ _ h => nomatch h⟩
  obtain ⟨hkeeps, _⟩ := hstart.trail (u.kind.isCollection_id u.key) htrail hthere
  obtain ⟨kept, hkept, hexpiry⟩ := hkeeps.stored
  exact hexpiry ▸ expires_of_find? hkeeps.calm hkeeps.keyed hkept

/-- Setting or removing the expiry of a collection leaves what it holds, and makes it if there is
none. After the commit the collection has the expiry for as long as other transactions leave it
alone, whether all of them just add to the collection or it is always there for another reason. -/
theorem expires_when_dated {c : Connection} (hcalm : w.Calm)
    (hkeyed : (w.memory c.store).Keyed) :
    (∀ (kind : CollectionKind) (key : String) (length : Option Duration),
      (∀ content, (w.memory c.store).content? (kind.id key) = some content →
        kind.isLegible content.body) →
      ∃ after, w.run (Transaction.grouped c.store c.routing [kind.dating key length]).run =
          (.ok (), after) ∧
        (after.memory c.store).content? (kind.id key) =
          some ⟨(((w.memory c.store).content? (kind.id key)).map (·.body)).getD kind.blank,
            length.map w.clock.expiresIn⟩ ∧
        ∀ other, other ≠ kind.id key →
          (after.memory c.store).content? other = (w.memory c.store).content? other) ∧
    ∀ (u : Dating) (dated : World) (lasts : Prop)
      (stages : List (Stage TransactionTask TransactionPlan.Settlement)) (y : TransactionYard),
      u.run w c = ((.ok (), .ok ()), dated) →
      (∀ entry ∈ u.after, entry.2.Retains u.id lasts) →
      Yard.Trail TransactionTask.program (TransactionTask.Retains c.store u.id lasts)
        ⟨dated, fun _ => none⟩ stages y →
      (lasts ∨ (dated.memory c.store).find? u.id ≠ none ∧
        ∀ stage ∈ stages, stage.yard.find? c.store u.id ≠ none) →
      y.world.Expires c u.kind u.key u.expiresAt ∧
      ∀ length ∈ u.length, u.time.isLeap = false → y.world.clock.isLeap = false →
        ((u.time.expiresIn length).since y.world.clock).nanos =
          min (u.time.elapsed + length.nanos) Instant.greatest.elapsed -
            y.world.clock.elapsed ∧
        ((u.time.expiresIn length).atOrBefore y.world.clock = true ↔
          ((u.time.expiresIn length).since y.world.clock).nanos ≤ 0) := by
  refine ⟨fun kind key length hlegible => ?_, fun u dated lasts stages y hrun hafter htrail
    hthere => ⟨?_, fun length _ htime hclock => ?_⟩⟩
  · have hid : (kind.dating key length).id = kind.id key := CollectionKind.id_dating
    have happly : (kind.dating key length).apply w.clock
        ((w.memory c.store).content? (kind.dating key length).id) = _ :=
      hid ▸ CollectionKind.apply_dating hlegible
    obtain ⟨after, next, hdone, hfollows, hself, hothers⟩ :=
      run_single c.store c.routing hcalm happly
    rw [hid, ← hfollows.memory] at hself hothers
    exact ⟨after, hdone, hself, hothers⟩
  · obtain ⟨hended, hkept, hdated, hpresent⟩ := dated_of_run hcalm hkeyed hrun hafter
    exact expires_of_trail hended hkept hdated htrail (hthere.elim hpresent And.left)
      (hthere.imp_right And.right)
  · obtain ⟨helapsed, hplain⟩ := Instant.elapsed_expiresIn htime length
    have hnanos := Instant.nanos_since hclock hplain
    rw [helapsed] at hnanos
    refine ⟨hnanos, ?_⟩
    rw [hnanos, Instant.atOrBefore_iff_elapsed hplain hclock, helapsed]
    omega

namespace Dated

def hash : Json := Document.encode (FieldMap.mk (Dict.ofList [("n", "1")]))

def calls : List StoreCall :=
  [.commit [.put (Document.idFor FieldMap "a") hash (some .greatest) .any]]

def world : World := (start .least).serve ⟨0⟩ calls

def dating : Dating where
  kind := .hash
  key := "a"
  length := some (.ofSeconds 3600)
  before := [(.least, .edit (.setFields "a" [("m", "2")]))]
  time := .origin
  after := [(.greatest, .edit (.setFields "a" [("n", "3")]))]

def moves : List (Move TransactionTask) :=
  Move.whole 0
    ⟨Sample.connection, .perform (.edit (.setFields "a" [("o", "4")])) fun _ => .commit⟩ 2 ++
    [.clock (Instant.origin.expiresIn (.ofSeconds 3600))]

def yard : TransactionYard :=
  (Yard.stroll TransactionTask.program moves
    ([], ⟨(dating.run world Sample.connection).2, fun _ => none⟩)).2

end Dated

/-- A hash that is persisted, and one that is reaped at the very time at which it expires. -/
theorem expires_when_dated_after_change :
    (∃ after, Dated.world.run (Transaction.grouped ⟨0⟩ Sample.connection.routing
        [.persistHash "a"]).run = (.ok (), after) ∧
      (after.memory ⟨0⟩).content? (Document.idFor FieldMap "a") = some ⟨Dated.hash, none⟩) ∧
    (Dated.yard.find? ⟨0⟩ Dated.dating.id).map (·.etag) = some 3 ∧
      Dated.yard.world.Expires Sample.connection .hash "a"
        (some (Instant.origin.expiresIn (.ofSeconds 3600))) ∧
      ((Instant.origin.expiresIn (.ofSeconds 3600)).since Dated.yard.world.clock).nanos = 0 ∧
      (Instant.origin.expiresIn (.ofSeconds 3600)).atOrBefore Dated.yard.world.clock = true := by
  have hserved := numbered_serve .least ⟨0⟩ Dated.calls
  have hcalm : Dated.world.Calm := calm_serve _ _ _
  have hrun : (Dated.dating.run Dated.world Sample.connection).1 = (.ok (), .ok ()) :=
    Prod.ext (eq_ok_of_isOk (by decide +kernel)) (eq_ok_of_isOk (by decide +kernel))
  have hadds : ∀ e : Edit, e.adds → (Operation.edit e).Retains Dated.dating.id True :=
    fun e h _ => ⟨Edit.isUndated_of_adds h, fun _ => h⟩
  have hmoves : ∀ n task, .begin n task ∈ Dated.moves →
      TransactionTask.Retains ⟨0⟩ Dated.dating.id True task := by
    intro n task hmem
    simp only [Dated.moves, List.mem_append, List.mem_singleton, Move.begin_mem_whole, reduceCtorEq,
      or_false] at hmem
    obtain ⟨_, rfl⟩ := hmem
    exact ⟨rfl, hadds _ rfl, fun _ => trivial⟩
  have hcontent : (Dated.world.memory ⟨0⟩).content? (CollectionKind.hash.id "a") =
      some ⟨Dated.hash, some .greatest⟩ :=
    rfl
  obtain ⟨hsingle, hdated⟩ := expires_when_dated (c := Sample.connection) hcalm hserved.keyed
  obtain ⟨after, hpersisted, hleft, _⟩ := hsingle .hash "a" none fun content hcontents => by
    cases hcontents.symm.trans hcontent
    decide +kernel
  obtain ⟨hexpires, hlength⟩ := hdated Dated.dating
    (Dated.dating.run Dated.world Sample.connection).2 True _ Dated.yard (Prod.ext hrun rfl)
    (List.forall_mem_singleton.mpr (hadds (.setFields ..) rfl))
    (Yard.trail_stroll hmoves .refl) (.inl trivial)
  obtain ⟨hnanos, hreaped⟩ := hlength (.ofSeconds 3600) rfl rfl (by decide +kernel)
  have hzero : min (Instant.origin.elapsed + (Duration.ofSeconds 3600).nanos)
      Instant.greatest.elapsed - Dated.yard.world.clock.elapsed = 0 := by
    decide +kernel
  have hnow := hnanos.trans hzero
  refine ⟨⟨after, hpersisted, ?_⟩, by decide +kernel, hexpires, hnow,
    hreaped.mpr (Int.le_of_eq hnow)⟩
  exact hleft.trans (by rw [show Sample.connection.store = ⟨0⟩ from rfl, hcontent]; rfl)

end World

end Simulation

end Jobyard
