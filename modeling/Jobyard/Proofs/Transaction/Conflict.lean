import Jobyard.Proofs.Simulation.Play
import Jobyard.Proofs.Transaction.Commit
import Jobyard.Proofs.Transaction.Revision

/-!
Transactions that nobody disturbs. What a transaction expects of a document is what it saw of it,
unless it deleted the document without looking at it: a document that the store has and that comes
back after such a deletion is expected to be missing.
-/

namespace Jobyard

inductive Operation
  | edit (e : Edit)
  | addToQueue (queue : String) (jobId : JobId)

namespace Operation

def step : Operation → Step Unit
  | edit e => e.step
  | addToQueue queue jobId => Step.addToQueue queue jobId

def edits (id : DocId) : Operation → Bool
  | edit e => e.id = id
  | addToQueue .. => false

def isRemoval : Operation → Bool
  | edit e => e.isRemoval
  | addToQueue .. => false

end Operation

/-- The first edit of a document deletes it without asking the store for it. -/
def FirstRemoves (plan : List (Instant × Operation)) (id : DocId) : Bool :=
  (plan.find? fun entry => entry.2.edits id).any fun entry => entry.2.isRemoval

theorem firstRemoves_append (plan more : List (Instant × Operation)) (id : DocId) :
    FirstRemoves (plan ++ more) id =
      if plan.any fun entry => entry.2.edits id then FirstRemoves plan id
      else FirstRemoves more id := by
  unfold FirstRemoves
  rw [List.find?_append]
  cases hfound : plan.find? fun entry => entry.2.edits id with
  | some entry =>
      have hedits : entry.2.edits id = true := by simpa using List.find?_some hfound
      have hany : (plan.any fun entry => entry.2.edits id) = true :=
        List.any_eq_true.mpr ⟨entry, List.mem_of_find?_eq_some hfound, hedits⟩
      rw [if_pos hany]
      rfl
  | none =>
      have hany : ¬ (plan.any fun entry => entry.2.edits id) = true := by
        rw [List.any_eq_true]
        rintro ⟨entry, hmem, hedits⟩
        exact List.find?_eq_none.mp hfound entry hmem hedits
      rw [if_neg hany]
      rfl

theorem Edit.collection_ne (e : Edit) : e.id.collection ≠ Document.collection QueueEntry := by
  cases e <;> exact of_decide_eq_false rfl

namespace Tracked

/-- What a session holds of a document while the store has `stored` of it. -/
structure Guarded (t : Tracked) (stored : Option Stored) : Prop where
  known : t.known = true → t.etag = stored.map (·.etag)
  unknown : t.known = false → t.etag = none ∧ t.status ≠ .unchanged
  filled : t.status = .dirty → t.body.isSome

variable {t next : Tracked} {stored : Option Stored}

theorem guarded_ofLoaded (stored : Option Stored) : (ofLoaded stored).Guarded stored := by
  cases stored <;> exact ⟨fun _ => rfl, nofun, nofun⟩

theorem guarded_unasked_drop (stored : Option Stored) : unasked.drop.Guarded stored :=
  ⟨nofun, fun _ => ⟨rfl, nofun⟩, nofun⟩

theorem guarded_unasked_hold (stored : Option Stored) (body : Json) :
    (unasked.hold body).Guarded stored :=
  ⟨nofun, fun _ => ⟨rfl, nofun⟩, fun _ => rfl⟩

theorem Succeeds.guarded (h : t.Succeeds next) (hguarded : t.Guarded stored) :
    next.Guarded stored where
  known hknown := h.etag.trans (hguarded.known (h.known.symm.trans hknown))
  unknown hunknown := by
    obtain ⟨hetag, hstatus⟩ := hguarded.unknown (h.known.symm.trans hunknown)
    refine ⟨h.etag.trans hetag, ?_⟩
    rcases h.settled with rfl | hdeleted | ⟨hdirty, _⟩
    · exact hstatus
    · rw [hdeleted]
      decide
    · rw [hdirty]
      decide
  filled hdirty := by
    rcases h.settled with rfl | hdeleted | ⟨_, hbody⟩
    · exact hguarded.filled hdirty
    · rw [hdeleted] at hdirty
      cases hdirty
    · exact hbody

theorem unmet_iff {m : Memory} {id : DocId} (h : t.Guarded (m.find? id)) :
    (∃ w, t.write? true id = some w ∧ ¬ m.Meets w) ↔
      t.known = false ∧ t.isPresent ∧ (m.find? id).isSome := by
  obtain ⟨hknown, hunknown, hfilled⟩ := h
  obtain ⟨body, etag, known, expiresAt, status⟩ := t
  cases status with
  | unchanged =>
      cases known with
      | true => simp [write?]
      | false => exact absurd rfl (hunknown rfl).2
  | dirty =>
      obtain ⟨content, hcontent⟩ := Option.isSome_iff_exists.mp (hfilled rfl)
      cases hcontent
      cases known with
      | true =>
          have hetag : etag = (m.find? id).map (·.etag) := hknown rfl
          cases hfound : m.find? id <;>
            simp [write?, Memory.Meets, Write.demand, Write.id, hetag, hfound, Expected.accepts]
      | false =>
          have hetag : etag = none := (hunknown rfl).1
          cases hfound : m.find? id <;>
            simp [write?, Memory.Meets, Write.demand, Write.id, hetag, hfound, Expected.accepts,
              isPresent]
  | deleted =>
      cases known with
      | true =>
          have hetag : etag = (m.find? id).map (·.etag) := hknown rfl
          cases hfound : m.find? id <;>
            simp [write?, Memory.Meets, Write.demand, Write.id, hetag, hfound, Expected.accepts]
      | false =>
          simp [write?, Memory.Meets, Write.demand, Expected.accepts, isPresent]

end Tracked

/-- A session in which some operations were done while its store stood still. -/
structure Assembled (m : Memory) (done : List (Instant × Operation)) (s : Session) : Prop where
  optimistic : s.optimistic = true
  distinct : s.Distinct
  deferred : ∀ w ∈ s.deferred, ∃ e field delta expiresAt,
    w = .increment (Edit.id e) field delta expiresAt
  guarded : ∀ id t, s.find? id = some t → t.Guarded (m.find? id)
  edited : ∀ id, id.collection ≠ Document.collection QueueEntry →
    (s.find? id).isSome = done.any fun entry => entry.2.edits id
  first : ∀ id t, id.collection ≠ Document.collection QueueEntry → s.find? id = some t →
    t.known = !FirstRemoves done id
  entry : ∀ id t, id.collection = Document.collection QueueEntry → s.find? id = some t →
    m.find? id = none

theorem assembled_empty (m : Memory) (store : StoreRef) : Assembled m [] (.empty store true) where
  optimistic := rfl
  distinct := Session.distinct_empty store true
  deferred _ h := nomatch h
  guarded _ _ h := nomatch h
  edited _ _ := rfl
  first _ _ _ h := nomatch h
  entry _ _ _ h := nomatch h

namespace Assembled

variable {m : Memory} {done : List (Instant × Operation)} {s : Session}

theorem amend (h : Assembled m done s) {e : Edit} {t : Tracked} (time : Instant)
    (hguarded : t.Guarded (m.find? e.id))
    (hknown : t.known = !FirstRemoves (done ++ [(time, .edit e)]) e.id)
    {writes : List Write}
    (hwrites : ∀ w ∈ writes, ∃ field delta expiresAt, w = .increment e.id field delta expiresAt) :
    Assembled m (done ++ [(time, .edit e)]) (s.amend e.id t writes) where
  optimistic := h.optimistic
  distinct := h.distinct.track e.id t
  deferred w hmem := (List.mem_append.mp hmem).elim (h.deferred w) fun hnew => ⟨e, hwrites w hnew⟩
  guarded id u hfound := by
    rw [Session.find?_amend] at hfound
    split at hfound
    · rename_i hid
      cases hfound
      exact hid ▸ hguarded
    · exact h.guarded id u hfound
  edited id hid := by
    rw [Session.find?_amend, List.any_append]
    split
    · rename_i hsame
      simp [Operation.edits, hsame]
    · rename_i hne
      rw [h.edited id hid]
      simp [Operation.edits, Ne.symm hne]
  first id u hid hfound := by
    rw [Session.find?_amend] at hfound
    split at hfound
    · rename_i hsame
      cases hfound
      rw [hsame]
      exact hknown
    · have hdone := h.edited id hid
      rw [hfound, Option.isSome_some] at hdone
      rw [firstRemoves_append, if_pos hdone.symm]
      exact h.first id u hid hfound
  entry id u hid hfound := by
    rw [Session.find?_amend] at hfound
    split at hfound
    · rename_i hsame
      exact absurd (hsame ▸ hid) e.collection_ne
    · exact h.entry id u hid hfound

theorem act (h : Assembled m done s) {e : Edit} {now : Instant} (time : Instant)
    (hok : (e.act now m s).1 = .ok ()) :
    Assembled m (done ++ [(time, .edit e)]) (e.act now m s).2 := by
  unfold Edit.act at hok ⊢
  cases hrevise : e.revise now (e.sight m s) with
  | error failure =>
      rw [hrevise] at hok
      cases hok
  | ok revised =>
      obtain ⟨next, writes⟩ := revised
      obtain ⟨hsucceeds, hwrites⟩ := Edit.succeeds_of_revise hrevise
      have hedited := h.edited e.id e.collection_ne
      cases hfound : s.find? e.id with
      | some t =>
          -- The session keeps to what it knew when the document was first edited.
          have hsight : e.sight m s = t := by simp [Edit.sight, Session.seen, hfound]
          rw [hsight] at hsucceeds
          rw [hfound, Option.isSome_some] at hedited
          refine h.amend time (hsucceeds.guarded (h.guarded _ t hfound)) ?_ hwrites
          rw [firstRemoves_append, if_pos hedited.symm, hsucceeds.known]
          exact h.first _ t e.collection_ne hfound
      | none =>
          rw [hfound, Option.isSome_none] at hedited
          have hfirst : FirstRemoves (done ++ [(time, .edit e)]) e.id = e.isRemoval := by
            rw [firstRemoves_append, if_neg (by simp [← hedited])]
            simp [FirstRemoves, Operation.edits, Operation.isRemoval]
          cases hremoval : e.isRemoval with
          | true =>
              rw [Edit.revise_of_isRemoval hremoval] at hrevise
              cases hrevise
              have hsight : e.sight m s = .unasked := by simp [Edit.sight, hremoval, hfound]
              rw [hsight]
              refine h.amend time (Tracked.guarded_unasked_drop _) ?_ hwrites
              rw [hfirst, hremoval]
              rfl
          | false =>
              have hsight : e.sight m s = .ofLoaded (m.find? e.id) := by
                simp [Edit.sight, hremoval, Session.seen, hfound]
              rw [hsight] at hsucceeds
              refine h.amend time (hsucceeds.guarded (Tracked.guarded_ofLoaded _)) ?_
                hwrites
              rw [hfirst, hremoval, hsucceeds.known]
              cases m.find? e.id <;> rfl

theorem put_entry (h : Assembled m done s) {key : String} (time : Instant) (queue : String)
    (jobId : JobId) (body : Json) (hfresh : m.find? (Document.idFor QueueEntry key) = none) :
    Assembled m (done ++ [(time, .addToQueue queue jobId)])
      (s.put (Document.idFor QueueEntry key) body) := by
  rw [Session.put_eq_track]
  have hsame : ∀ id, id.collection ≠ Document.collection QueueEntry →
      id ≠ Document.idFor QueueEntry key := by
    rintro id hid rfl
    exact hid rfl
  constructor
  · exact h.optimistic
  · exact h.distinct.track _ _
  · exact h.deferred
  · intro id t hfound
    rw [Session.find?_track] at hfound
    split at hfound
    · rename_i hid
      cases hfound
      subst hid
      cases htracked : s.find? (Document.idFor QueueEntry key) with
      | none => exact Tracked.guarded_unasked_hold _ body
      | some u => exact (u.succeeds_hold body).guarded (h.guarded _ u htracked)
    · exact h.guarded id t hfound
  · intro id hid
    rw [Session.find?_track, if_neg (hsame id hid), h.edited id hid, List.any_append]
    simp [Operation.edits]
  · intro id t hid hfound
    rw [Session.find?_track, if_neg (hsame id hid)] at hfound
    have hedited := h.edited id hid
    rw [hfound, Option.isSome_some] at hedited
    rw [firstRemoves_append, if_pos hedited.symm]
    exact h.first id t hid hfound
  · intro id t hid hfound
    rw [Session.find?_track] at hfound
    split at hfound
    · rename_i hkey
      exact hkey ▸ hfresh
    · exact h.entry id t hid hfound

/-- The writes that the store as it is does not meet are those of documents that come back after
they were deleted before the store was asked for them. -/
theorem exists_unmet_iff (h : Assembled m done s) :
    (∃ w ∈ s.documentWrites, ¬ m.Meets w) ↔
      ∃ id, (m.find? id).isSome ∧ FirstRemoves done id ∧ (s.find? id).any Tracked.isPresent := by
  have hcollection : ∀ id t, s.find? id = some t → (m.find? id).isSome →
      id.collection ≠ Document.collection QueueEntry := by
    intro id t hfound hstored hentry
    rw [h.entry id t hentry hfound] at hstored
    cases hstored
  constructor
  · rintro ⟨w, hmem, hnot⟩
    obtain ⟨t, hfound, hwrite⟩ := (Session.mem_documentWrites_iff h.distinct).mp hmem
    rw [h.optimistic] at hwrite
    obtain ⟨hunknown, hpresent, hstored⟩ :=
      (Tracked.unmet_iff (h.guarded _ t hfound)).mp ⟨w, hwrite, hnot⟩
    refine ⟨w.id, hstored, ?_, by rw [hfound]; exact hpresent⟩
    rw [h.first _ t (hcollection _ t hfound hstored) hfound] at hunknown
    simpa using hunknown
  · rintro ⟨id, hstored, hfirst, hpresent⟩
    cases hfound : s.find? id with
    | none =>
        rw [hfound] at hpresent
        cases hpresent
    | some t =>
        rw [hfound] at hpresent
        have hunknown : t.known = false := by
          rw [h.first id t (hcollection id t hfound hstored) hfound, hfirst]
          rfl
        obtain ⟨w, hwrite, hnot⟩ :=
          (Tracked.unmet_iff (h.guarded id t hfound)).mpr ⟨hunknown, hpresent, hstored⟩
        obtain ⟨rfl, _⟩ := Tracked.write?_eq_some hwrite
        refine ⟨w, (Session.mem_documentWrites_iff h.distinct).mpr ⟨t, hfound, ?_⟩, hnot⟩
        rw [h.optimistic]
        exact hwrite

theorem commit_retryable_iff (h : Assembled m done s) :
    (∃ e, m.commit s.batch = .error e ∧ e.isRetryable) ↔
      ∃ w ∈ s.documentWrites, ¬ m.Meets w := by
  have hundemanding : ∀ w ∈ s.deferred, w.demand = none := by
    intro w hmem
    obtain ⟨_, _, _, _, rfl⟩ := h.deferred w hmem
    rfl
  rw [Session.batch_eq, Memory.commit_append]
  rcases m.commit_demanding (fun _ => Session.demand_of_mem_documentWrites)
    (Session.nodup_ids_documentWrites h.distinct) with
    ⟨hmeets, next, hcommit⟩ | ⟨⟨w, hmem, hnot⟩, e, hcommit, hretryable⟩
  · rw [hcommit]
    constructor
    · rintro ⟨e, herror, hretryable⟩
      rw [Memory.commit_undemanding hundemanding herror] at hretryable
      cases hretryable
    · rintro ⟨w, hmem, hnot⟩
      exact absurd (hmeets w hmem) hnot
  · rw [hcommit]
    exact ⟨fun _ => ⟨w, hmem, hnot⟩, fun _ => ⟨e, rfl, hretryable⟩⟩

end Assembled

namespace Simulation.World

def nextEntry (w : World) : DocId := Document.idFor QueueEntry (freshText (w.issued.length + 1))

/-- An operation that makes an entry makes one that the store does not have, under a text that was
not given out before. -/
def isFreshFor (w : World) (store : StoreRef) : Operation → Bool
  | .edit _ => true
  | .addToQueue .. => w.isFresh .freshText && ((w.memory store).find? w.nextEntry).isNone

theorem fresh_of_isFreshFor {w : World} {store : StoreRef} {queue : String} {jobId : JobId}
    (h : w.isFreshFor store (.addToQueue queue jobId) = true) :
    w.nextEntry.key ∉ w.issued ∧ (w.memory store).find? w.nextEntry = none := by
  obtain ⟨hissued, hstored⟩ := Bool.and_eq_true_iff.mp h
  refine ⟨?_, Option.isNone_iff_eq_none.mp hstored⟩
  change freshText (w.issued.length + 1) ∉ w.issued
  simpa [isFresh] using hissued

def attempt (w : World) (t : Transaction) (time : Instant) (op : Operation) :
    Option (World × Transaction) :=
  let w := { w with clock := time }
  match w.isFreshFor t.session.store op, w.run (op.step.start t) with
  | true, ((.ok _, t), w) => some (w, t)
  | _, _ => none

def assemble (w : World) (t : Transaction) :
    List (Instant × Operation) → Option (World × Transaction)
  | [] => some (w, t)
  | (time, op) :: rest => (w.attempt t time op).bind fun (w, t) => w.assemble t rest

variable {w last : World} {t final : Transaction} {done : List (Instant × Operation)}

theorem attempt_eq_some {time : Instant} {op : Operation}
    (h : w.attempt t time op = some (last, final)) :
    World.isFreshFor { w with clock := time } t.session.store op = true ∧
      World.run { w with clock := time } (op.step.start t) = ((.ok (), final), last) := by
  unfold attempt at h
  simp only at h
  split at h
  · rename_i hfresh hrun
    cases h
    exact ⟨hfresh, hrun⟩
  · cases h

structure Undisturbed (w : World) (store : StoreRef) (m : Memory)
    (done : List (Instant × Operation)) (t : Transaction) : Prop where
  calm : w.Calm
  memory : w.memory store = m
  store : t.session.store = store
  session : Assembled m done t.session
  issued : ∀ id u, id.collection = Document.collection QueueEntry →
    t.session.find? id = some u → id.key ∈ w.issued

theorem undisturbed_start (hcalm : w.Calm) (store : StoreRef) (routing : Routing) :
    w.Undisturbed store (w.memory store) [] (Transaction.start store routing) :=
  ⟨hcalm, rfl, rfl, assembled_empty _ store, fun _ _ _ h => nomatch h⟩

theorem undisturbed_attempt {store : StoreRef} {m : Memory} {time : Instant} {op : Operation}
    (h : w.Undisturbed store m done t) (hattempt : w.attempt t time op = some (last, final)) :
    last.Undisturbed store m (done ++ [(time, op)]) final := by
  obtain ⟨hfresh, hrun⟩ := attempt_eq_some hattempt
  have hcalm : World.Calm { w with clock := time } := ⟨h.calm.hooks, h.calm.deadline⟩
  have hmemory : World.memory { w with clock := time } t.session.store = m := by
    rw [h.store]
    exact h.memory
  cases op with
  | edit e =>
      change World.run _ (e.step.start t) = _ at hrun
      rw [run_edit hcalm, hmemory] at hrun
      obtain ⟨hresult, hlast⟩ := Prod.mk.inj hrun
      obtain ⟨hok, hfinal⟩ := Prod.mk.inj hresult
      rw [← hlast, ← hfinal]
      refine ⟨hcalm, h.memory, (e.store_act time m t.session).trans h.store,
        h.session.act time hok, ?_⟩
      · intro id u hid hfound
        have hne : id ≠ e.id := fun hsame => e.collection_ne (hsame ▸ hid)
        exact h.issued id u hid ((e.find?_act time m t.session hne).symm.trans hfound)
  | addToQueue queue jobId =>
      change World.run _ (Step.start (Step.addToQueue queue jobId) t) = _ at hrun
      rw [Step.start_addToQueue] at hrun
      obtain ⟨hresult, hlast⟩ := Prod.mk.inj hrun
      obtain ⟨_, hfinal⟩ := Prod.mk.inj hresult
      rw [← hlast, ← hfinal]
      refine ⟨⟨hcalm.hooks, hcalm.deadline⟩, h.memory, (Session.store_put _ _ _).trans h.store,
        h.session.put_entry time queue jobId _ ?_, ?_⟩
      · rw [← hmemory]
        exact (fresh_of_isFreshFor hfresh).2
      · intro id u hid hfound
        simp only [Session.put_eq_track, Session.find?_track] at hfound
        split at hfound
        · rename_i hkey
          rw [hkey]
          exact List.mem_cons_self
        · exact List.mem_cons_of_mem _ (h.issued id u hid hfound)

theorem undisturbed_assemble {store : StoreRef} {m : Memory}
    {plan : List (Instant × Operation)} (h : w.Undisturbed store m done t)
    (hassemble : w.assemble t plan = some (last, final)) :
    last.Undisturbed store m (done ++ plan) final := by
  induction plan generalizing w t done with
  | nil =>
      cases hassemble
      rwa [List.append_nil]
  | cons entry rest ih =>
      obtain ⟨time, op⟩ := entry
      obtain ⟨⟨middle, next⟩, hattempt, hrest⟩ := Option.bind_eq_some_iff.mp hassemble
      have hnext := ih (undisturbed_attempt h hattempt) hrest
      rwa [List.append_assoc] at hnext

/-- A transaction whose operations all went well, at any readings of the clock, and that nobody
disturbed loses a race at its commit exactly if it holds a document that the store has and that its
first edit of it deleted without asking for it. -/
theorem commit_conflicts_iff {store : StoreRef} {routing : Routing}
    {plan : List (Instant × Operation)} (hcalm : w.Calm)
    (hassemble : w.assemble (Transaction.start store routing) plan = some (last, final)) :
    (∃ e, (last.run (Step.commit.start final)).1.1 = .error e ∧ e.isRetryable) ↔
      ∃ id, ((w.memory store).find? id).isSome ∧ FirstRemoves plan id ∧
        (final.session.find? id).any Tracked.isPresent := by
  obtain ⟨hlast, hmemory, hstore, hsession, _⟩ :=
    undisturbed_assemble (undisturbed_start hcalm store routing) hassemble
  rw [List.nil_append] at hsession
  rw [← hsession.exists_unmet_iff, ← hsession.commit_retryable_iff]
  cases hcommit : (w.memory store).commit final.session.batch with
  | ok next =>
      rw [← hmemory, ← hstore] at hcommit
      obtain ⟨_, _, hrun, _⟩ := run_commit hlast hcommit
      rw [hrun]
      simp
  | error e =>
      rw [← hmemory, ← hstore] at hcommit
      obtain ⟨_, _, hrun, _⟩ := run_commit_error hlast hcommit
      rw [hrun]
      simp

namespace Sample

def withHash : World :=
  ((World.start .origin).apply ⟨0⟩ (.commit [.put (Document.idFor FieldMap "a")
    (Document.encode (FieldMap.mk (Dict.ofList [("n", "1")]))) none .absent])).2

def transaction : Transaction := Sample.connection.transaction

end Sample

/-- The hash is changed, removed and made again, and a job is queued. -/
theorem commits_of_changed_first :
    ∃ last final, Sample.withHash.assemble Sample.transaction
        [(.origin, .edit (.setFields "a" [("n", "2")])), (.origin, .edit (.removeHash "a")),
          (.origin, .edit (.setFields "a" [("n", "3")])), (.origin, .addToQueue "q" ⟨"1"⟩)] =
        some (last, final) ∧
      ¬ ∃ e, (last.run (Step.commit.start final)).1.1 = .error e ∧ e.isRetryable := by
  obtain ⟨⟨last, final⟩, hassemble⟩ := Option.isSome_iff_exists.mp (show (Sample.withHash.assemble
    Sample.transaction
    [(.origin, .edit (.setFields "a" [("n", "2")])), (.origin, .edit (.removeHash "a")),
      (.origin, .edit (.setFields "a" [("n", "3")])), (.origin, .addToQueue "q" ⟨"1"⟩)]).isSome
    from by decide +kernel)
  refine ⟨last, final, hassemble, fun hconflict => ?_⟩
  obtain ⟨id, _, hfirst, _⟩ := (commit_conflicts_iff ⟨rfl, rfl⟩ hassemble).mp hconflict
  by_cases hid : (Edit.setFields "a" [("n", "2")]).id = id
  · simp [FirstRemoves, Operation.edits, hid, Operation.isRemoval, Edit.isRemoval] at hfirst
  · change ¬ Document.idFor FieldMap "a" = id at hid
    simp [FirstRemoves, Operation.edits, Edit.id, hid] at hfirst

theorem conflicts_of_removed_first :
    ¬ ∀ (w last : World) (store : StoreRef) (routing : Routing)
        (plan : List (Instant × Operation)) (final : Transaction), w.Calm →
      w.assemble (Transaction.start store routing) plan = some (last, final) →
        ¬ ∃ e, (last.run (Step.commit.start final)).1.1 = .error e ∧ e.isRetryable := by
  intro hall
  let plan : List (Instant × Operation) :=
    [(.origin, .edit (.removeHash "a")), (.origin, .edit (.setFields "a" [("n", "2")]))]
  have hconflicts : ((Sample.withHash.assemble Sample.transaction plan).map fun (last, final) =>
      (last.run (Step.commit.start final)).1.1) =
        some (.error (.putMismatch (Document.idFor FieldMap "a") .absent (some 1))) := by
    rfl
  obtain ⟨⟨last, final⟩, hassemble, herror⟩ := Option.map_eq_some_iff.mp hconflicts
  exact hall _ _ _ _ _ _ ⟨rfl, rfl⟩ hassemble ⟨_, herror, rfl⟩

end Simulation.World

end Jobyard
