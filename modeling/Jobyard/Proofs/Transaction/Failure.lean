import Jobyard.Proofs.Transaction.Conflict

/-!
Failures of transactions. Whatever the store answers, a step of a transaction fails, if it does,
before it changes anything: its session goes on with no more than further documents as the store
showed them, so that the commit would send what it would have sent before.
-/

namespace Jobyard

namespace Session

/-- A session that goes on with further documents as they were shown to it, and nothing else. -/
structure Browses (s next : Session) : Prop where
  optimistic : next.optimistic = s.optimistic
  deferred : next.deferred = s.deferred
  tracked : ∃ more, next.tracked = s.tracked ++ more ∧
    ∀ entry ∈ more, entry.2.status = .unchanged

variable {s middle next : Session} {id : DocId}

theorem browses_refl (s : Session) : s.Browses s where
  optimistic := rfl
  deferred := rfl
  tracked := ⟨[], (List.append_nil _).symm, fun _ h => nomatch h⟩

theorem Browses.trans (hfirst : s.Browses middle) (hsecond : middle.Browses next) :
    s.Browses next := by
  obtain ⟨first, hmiddle, hshown⟩ := hfirst.tracked
  obtain ⟨second, hnext, hmore⟩ := hsecond.tracked
  refine ⟨hsecond.optimistic.trans hfirst.optimistic, hsecond.deferred.trans hfirst.deferred,
    first ++ second, by rw [hnext, hmiddle, List.append_assoc], ?_⟩
  intro entry hmem
  rcases List.mem_append.mp hmem with hmem | hmem
  · exact hshown entry hmem
  · exact hmore entry hmem

theorem browses_track_ofLoaded (hnew : s.find? id = none) (document : Option Stored) :
    s.Browses (s.track id (.ofLoaded document)) where
  optimistic := rfl
  deferred := rfl
  tracked := by
    refine ⟨[(id, .ofLoaded document)], place_of_lookup_eq_none _ hnew, fun entry hmem => ?_⟩
    cases List.mem_singleton.mp hmem
    cases document <;> rfl

theorem Browses.batch (h : s.Browses next) : next.batch = s.batch := by
  obtain ⟨more, htracked, hshown⟩ := h.tracked
  have hnone : (more.filterMap fun entry => entry.2.write? s.optimistic entry.1) = [] := by
    refine List.filterMap_eq_nil_iff.mpr fun entry hmem => ?_
    unfold Tracked.write?
    rw [hshown entry hmem]
  unfold Session.batch
  rw [h.optimistic, h.deferred, htracked, List.filterMap_append, hnone, List.append_nil]

end Session

namespace Work

variable {α β : Type} {s : Session} {id : DocId} {log : Log}

def Sure (s : Session) (work : Work α) : Prop :=
  ∀ log, (work.start s).Conforms (fun _ _ => True) (fun _ result => result.1.isOk) log

/-- Whatever it is told, the work goes well, or it fails before it changes anything. -/
def Careful (s : Session) (work : Work α) : Prop :=
  ∀ log, (work.start s).Conforms (fun _ _ => True)
    (fun _ result => result.1.isOk ∨ s.Browses result.2) log

theorem sure_of_start {work : Work α} {value : α} {next : Session}
    (h : work.start s = .done (.ok value, next)) : Sure s work := by
  intro log
  rw [h]
  rfl

theorem sure_save [Document α] (id : DocId) (document : α) : Sure s (save id document) :=
  sure_of_start (start_modify _ s)

theorem sure_delete (id : DocId) : Sure s (delete id) := sure_of_start (start_modify _ s)

theorem Sure.after_now {f : Instant → Work α} (h : ∀ now, Sure s (f now)) :
    Sure s (now >>= f) := by
  intro log
  rw [start_bind, start_now]
  exact ⟨trivial, fun time => h time _⟩

theorem Sure.discard {work : Work α} (h : Sure s work) : Sure s (discard work) := by
  intro log
  change (start (work >>= fun _ => pure ()) s).Conforms _ _ log
  rw [start_bind]
  refine (h log).bind fun log result hok => ?_
  obtain ⟨result, next⟩ := result
  cases result with
  | error e => exact hok
  | ok value => exact (rfl : (Except.ok () : Except StoreError Unit).isOk = true)

theorem Sure.careful {work : Work α} (h : Sure s work) : Careful s work :=
  fun log => (h log).mono fun _ _ hok => .inl hok

theorem careful_throw (e : StoreError) : Careful s (throw e : Work α) :=
  fun _ => .inr s.browses_refl

theorem Careful.after_now {f : Instant → Work α} (h : ∀ now, Careful s (f now)) :
    Careful s (now >>= f) := by
  intro log
  rw [start_bind, start_now]
  exact ⟨trivial, fun time => h time _⟩

theorem Careful.discard {work : Work α} (h : Careful s work) : Careful s (discard work) := by
  intro log
  change (start (work >>= fun _ => pure ()) s).Conforms _ _ log
  rw [start_bind]
  refine (h log).bind fun log result hends => ?_
  obtain ⟨result, next⟩ := result
  cases result with
  | error e => exact hends
  | ok value => exact .inl rfl

theorem browses_ensureLoaded (id : DocId) (s : Session) (log : Log) :
    (start (ensureLoaded [id]) s).Conforms (fun _ _ => True)
      (fun _ result => s.Browses result.2) log := by
  rw [start_ensureLoaded]
  split
  · exact s.browses_refl
  · rename_i hmissing
    have hnone : s.find? id = none := by simpa [missing, Session.isTracked] using hmissing
    have hall : missing s [id] = [id] := by simp [missing, Session.isTracked, hnone]
    rw [hall]
    refine ⟨trivial, fun reply => ?_⟩
    cases reply with
    | error e => exact s.browses_refl
    | ok loaded =>
        cases loaded with
        | nil => exact s.browses_refl
        | cons document rest => exact Session.browses_track_ofLoaded hnone document

theorem Careful.after_ensureLoaded {f : Unit → Work α}
    (h : ∀ next, s.Browses next → Careful next (f ())) : Careful s (ensureLoaded [id] >>= f) := by
  intro log
  rw [start_bind]
  refine (browses_ensureLoaded id s log).bind fun log result hbrowses => ?_
  obtain ⟨result, next⟩ := result
  cases result with
  | error e => exact .inr hbrowses
  | ok _ => exact (h next hbrowses log).mono fun _ _ hends => hends.imp_right hbrowses.trans

theorem Careful.after_load {α : Type} [Document α] {f : Option α → Work β}
    (h : ∀ found next t, (next.find? id).getD .unasked = t → t.decode α id = .ok found →
      Careful next (f found)) : Careful s (load α id >>= f) := by
  unfold load
  rw [bind_assoc]
  refine .after_ensureLoaded fun next _ log => ?_
  rw [start_bind, start_view]
  simp only [Interaction.done_bind]
  have hview : (next.find? id).elim (.ok none) (Tracked.decode α id) =
      ((next.find? id).getD .unasked).decode α id := by
    cases next.find? id <;> rfl
  rw [hview]
  cases hdecode : ((next.find? id).getD .unasked).decode α id with
  | error e => exact .inr next.browses_refl
  | ok found => exact h found next _ rfl hdecode log

/-- After a document was loaded or made blank it is there, and what is left to do with it must not
fail. -/
theorem careful_of_filled {α : Type} [FindOrCreate α] {f : α → Work β}
    (h : ∀ document next t, next.find? id = some t → t.isPresent = true →
      Sure next (f document)) : Careful s (loadOrBlank α id >>= f) := by
  unfold loadOrBlank
  rw [bind_assoc]
  refine .after_load fun found next t hheld hdecode => ?_
  cases found with
  | none =>
      have hplaced : (next.put id (Document.encode (FindOrCreate.blank : α))).find? id =
          some (t.hold (Document.encode (FindOrCreate.blank : α))) := by
        rw [Session.put_eq_track, hheld, Session.find?_track_self]
      intro log
      exact (h FindOrCreate.blank _ _ hplaced rfl log).mono fun _ _ hok => .inl hok
  | some document =>
      have hpresent := Tracked.isPresent_of_decode hdecode
      cases hfound : next.find? id with
      | none =>
          rw [hfound] at hheld
          subst hheld
          cases hpresent
      | some u =>
          rw [hfound] at hheld
          subst hheld
          exact (h document next _ hfound hpresent).careful

theorem careful_change (α : Type) [FindOrCreate α] (key : String) (f : α → α) :
    Careful s (change α key f) :=
  careful_of_filled fun _ _ _ _ _ => sure_save _ _

theorem careful_changeOrDelete (α : Type) [FindOrCreate α] (key : String) (f : α → α)
    (isEmpty : α → Bool) : Careful s (changeOrDelete α key f isEmpty) := by
  refine careful_of_filled fun document next t _ _ => ?_
  change Sure next (if isEmpty (f document) then _ else _)
  split
  · exact sure_delete _
  · exact sure_save _ _

theorem sure_updateExpiry {t : Tracked} (hfound : s.find? id = some t)
    (hpresent : t.isPresent = true) (expiresAt : Option Instant) :
    Sure s (updateExpiry id expiresAt) := by
  have hstart : start (updateExpiry id expiresAt) (s.track id t) = _ :=
    start_updateExpiry_track hpresent expiresAt
  rw [Session.track_of_find? hfound] at hstart
  exact sure_of_start hstart

theorem careful_updateExpiry (id : DocId) (expiresAt : Option Instant) :
    Careful s (updateExpiry id expiresAt) := by
  refine .after_ensureLoaded fun next _ log => ?_
  rw [start_bind, start_get]
  simp only [Interaction.done_bind]
  split
  · split <;> exact .inl rfl
  · exact .inl rfl

theorem careful_expire (α : Type) [FindOrCreate α] (id : DocId) (length : Duration) :
    Careful s (do
      discard (loadOrBlank α id)
      let now ← Work.now
      discard (setExpiry id (now.expiresIn length))) := by
  change Careful s ((loadOrBlank α id >>= fun _ => pure ()) >>= fun _ => _)
  rw [bind_assoc]
  exact careful_of_filled fun _ _ _ hfound hpresent =>
    Sure.after_now fun _ => (sure_updateExpiry hfound hpresent _).discard

theorem careful_persist (α : Type) [FindOrCreate α] (id : DocId) :
    Careful s (do
      discard (loadOrBlank α id)
      discard (removeExpiry id)) := by
  change Careful s ((loadOrBlank α id >>= fun _ => pure ()) >>= fun _ => _)
  rw [bind_assoc]
  exact careful_of_filled fun _ _ _ hfound hpresent =>
    (sure_updateExpiry hfound hpresent none).discard

theorem careful_enter (id : DocId) (state : JobState) :
    Careful s (do
      match ← load Job id with
      | none => throw (.missing id)
      | some job =>
        let now ← Work.now
        save id (job.enter state now)) := by
  refine .after_load fun found next _ _ _ => ?_
  cases found with
  | none => exact careful_throw _
  | some job => exact (Sure.after_now fun now => sure_save _ _).careful

theorem sure_addTo (id : DocId) (delta : Int) (expiresAt : Option Instant)
    (found : Option Counter) : Sure s (addTo id delta expiresAt found) := by
  cases found with
  | none => exact sure_of_start (start_makeCounter s id delta expiresAt)
  | some counter =>
      have hmake := sure_of_start (start_makeCounter s id (counter.value + delta) expiresAt)
      intro log
      unfold addTo
      rw [start_bind, start_get]
      simp only [Interaction.done_bind]
      split
      · exact hmake log
      · rfl

theorem careful_addToCounter (id : DocId) (delta : Int) (length : Option Duration) :
    Careful s (do
      let expiresAt ← length.mapM fun length => do pure ((← Work.now).expiresIn length)
      let found ← load Counter id
      addTo id delta expiresAt found) := by
  have hadd : ∀ expiresAt, Careful s (load Counter id >>= addTo id delta expiresAt) :=
    fun _ => .after_load fun found _ _ _ _ => (sure_addTo id delta _ found).careful
  cases length with
  | none => exact hadd none
  | some length => exact .after_now fun now => hadd (some (now.expiresIn length))

end Work

namespace Step

variable {t : Transaction} {log : Log}

/-- Whatever it is told, a step that fails leaves what a commit would do. -/
def Harmless (t : Transaction) (step : Step Unit) : Prop :=
  ∀ log, (step.start t).Conforms (fun _ _ => True)
    (fun _ result => ∀ e, result.1 = .error e →
      result.2.session.batch = t.session.batch ∧ result.2.afterCommit = t.afterCommit) log

theorem harmless_ofWork {work : Work Unit} (h : Work.Careful t.session work) :
    Harmless t (ofWork work) := by
  intro log
  change (work.start t.session >>= fun result =>
    Interaction.done (result.1, { t with session := result.2 })).Conforms _ _ _
  refine (h log).bind fun log result hends e hfailed => ?_
  rcases hends with hok | hbrowses
  · rw [hfailed] at hok
    cases hok
  · exact ⟨hbrowses.batch, rfl⟩

theorem harmless_addToQueue (queue : String) (id : JobId) :
    Harmless t (addToQueue queue id) := by
  intro log
  rw [start_addToQueue]
  exact ⟨trivial, fun _ _ h => nomatch h⟩

theorem harmless_afterCommit (action : AfterCommit) : Harmless t (afterCommit action) :=
  fun _ _ h => nomatch h

/-- A commit that is refused keeps the changes, and its actions run only after a success. -/
theorem harmless_commit : Harmless t commit := by
  intro log
  rw [start_commit, Work.start_saveChanges]
  have hactions : ∀ next log, Program.Conforms (fun _ _ => True)
      (fun _ (result : Except StoreError Unit × Transaction) => ∀ e, result.1 = .error e →
        result.2.session.batch = t.session.batch ∧ result.2.afterCommit = t.afterCommit) log
      (runAll t.afterCommit >>= fun _ => Interaction.done (Except.ok (), next)) :=
    fun _ _ => (Program.conforms_true (runAll t.afterCommit)).bind fun _ _ _ _ h => nomatch h
  split
  · exact hactions _ log
  · refine ⟨trivial, fun reply => ?_⟩
    cases reply with
    | ok _ => exact hactions _ _
    | error e => exact fun _ _ => ⟨rfl, rfl⟩

end Step

theorem Edit.harmless (e : Edit) (t : Transaction) : Step.Harmless t e.step := by
  cases e with
  | expireJob id length =>
      exact Step.harmless_ofWork (.after_now fun _ => (Work.careful_updateExpiry _ _).discard)
  | persistJob id => exact Step.harmless_ofWork (Work.careful_updateExpiry _ _).discard
  | setJobState id state => exact Step.harmless_ofWork (Work.careful_enter _ state)
  | addToCounter key delta length =>
      rw [Edit.step, Step.addToCounter_eq]
      exact Step.harmless_ofWork (Work.careful_addToCounter _ delta length)
  | addToSet | addRangeToSet | appendToList | setFields =>
      exact Step.harmless_ofWork (Work.careful_change _ _ _)
  | removeFromSet | removeFromList | trimList =>
      exact Step.harmless_ofWork (Work.careful_changeOrDelete _ _ _ _)
  | removeSet | removeHash => exact Step.harmless_ofWork (Work.sure_delete _).careful
  | expireSet | expireList | expireHash => exact Step.harmless_ofWork (Work.careful_expire _ _ _)
  | persistSet | persistList | persistHash => exact Step.harmless_ofWork (Work.careful_persist _ _)

inductive Usage
  | perform (op : Operation)
  | afterCommit (action : AfterCommit)
  | commit

namespace Usage

def step : Usage → Step Unit
  | perform op => op.step
  | afterCommit action => Step.afterCommit action
  | commit => Step.commit

theorem harmless (u : Usage) (t : Transaction) : Step.Harmless t u.step := by
  cases u with
  | perform op =>
      cases op with
      | edit e => exact e.harmless t
      | addToQueue queue jobId => exact Step.harmless_addToQueue queue jobId
  | afterCommit action => exact Step.harmless_afterCommit action
  | commit => exact Step.harmless_commit

/-- Whatever answers it, a use of a transaction that returns an error leaves the batch that a
commit would send and the actions that wait for the commit. -/
theorem unchanged_of_failure {σ : Type} (answer : (request : Request) → StateM σ request.Reply)
    {state after : σ} {u : Usage} {t next : Transaction} {e : StoreError}
    (h : ((u.step.start t).run answer).run state = ((.error e, next), after)) :
    next.session.batch = t.session.batch ∧ next.afterCommit = t.afterCommit := by
  obtain ⟨_, hends⟩ := (u.harmless t []).ends_run answer state
  rw [h] at hends
  exact hends e rfl

namespace Sample

open Simulation

def world : World :=
  ((World.start .origin).apply ⟨0⟩
    (.commit [.put (Document.idFor ScoredSet "s") .null none .any])).2

def failingWorld : World :=
  { world with hooks := [⟨.load, 1, true, ⟨none, none, false, false, some .unreadableRow⟩⟩] }

def transaction : Transaction :=
  [.perform (.edit (.setFields "a" [("n", "1")])), .perform (.addToQueue "q" ⟨"1"⟩),
    .afterCommit (.perform "done")].foldl (fun t (u : Usage) => (world.run (u.step.start t)).1.2)
      World.Sample.transaction

/-- Uses that fail: of an unreadable set, of a missing job, and while the store fails. -/
def failing : List (World × Usage) :=
  [(world, .perform (.edit (.expireSet "s" (.ofSeconds 60)))),
    (world, .perform (.edit (.setJobState ⟨"1"⟩ ⟨"Done", none, ∅⟩))),
    (failingWorld, .perform (.edit (.appendToList "l" "x")))]

end Sample

theorem unchanged_by_failing :
    Sample.transaction.session.batch.length = 2 ∧ Sample.transaction.afterCommit.length = 2 ∧
      ∀ entry ∈ Sample.failing, ∃ e next after,
        entry.1.run (entry.2.step.start Sample.transaction) = ((.error e, next), after) ∧
          next.session.batch = Sample.transaction.session.batch ∧
          next.afterCommit = Sample.transaction.afterCommit := by
  refine ⟨by decide +kernel, by decide +kernel, fun entry hmem => ?_⟩
  have hfails : ∀ entry ∈ Sample.failing,
      (entry.1.run (entry.2.step.start Sample.transaction)).1.1.isOk = false := by
    decide +kernel
  have hfailed := hfails entry hmem
  cases hrun : entry.1.run (entry.2.step.start Sample.transaction) with
  | mk result after =>
      obtain ⟨outcome, next⟩ := result
      rw [hrun] at hfailed
      cases outcome with
      | ok _ => cases hfailed
      | error e => exact ⟨e, next, after, rfl, unchanged_of_failure Simulation.World.answer hrun⟩

end Usage

end Jobyard
