import Jobyard.Document.Collection
import Jobyard.Proofs.Session.Desk

/-!
Optimistic concurrency. A save that guards the version a session first saw succeeds only if nobody
wrote the document since then, as long as nobody took it away: a document that is created anew
counts its versions from 1 again, so that its versions can be taken for those of the former one.
-/

namespace Jobyard

theorem Memory.holds_of_shows {m : Memory} (hkeyed : m.Keyed) {store : StoreRef}
    {call : StoreCall} {id : DocId} {etag : Nat}
    (h : Exchange.Shows ⟨.store store call, (m.answer call).1⟩ id etag) :
    m.after call = m ∧ ∃ d, m.find? id = some d ∧ d.etag = etag := by
  cases call with
  | load ids =>
      obtain ⟨d, hmem, hetag⟩ := h
      exact ⟨rfl, d, (mem_zip_load hmem).symm, hetag⟩
  | query q =>
      cases hanswer : m.query q with
      | error e =>
          simp only [answer, hanswer] at h
          cases h
      | ok found =>
          simp only [answer, hanswer] at h
          obtain ⟨d, hmem, hid, hetag⟩ := h
          exact ⟨rfl, d, hid ▸ (mem_of_query hkeyed hanswer hmem).1, hetag⟩
  | _ => exact False.elim h

namespace Simulation.Desk

variable {store : StoreRef} {d : Desk} {n : Nat} {id : DocId} {etag : Nat}

theorem sessions_worked (store : StoreRef) (d : Desk) (n : Nat) (op : SessionOp) :
    (d.act store (.worked n op)).sessions n = (d.perform n op).1.2 := if_pos rfl

theorem holds_of_first_sight {look : SessionOp} (hsound : d.Sound store)
    (hunseen : (d.sessions n).isTracked id = false)
    (hseen : (((d.act store (.worked n look)).sessions n).find? id).bind (·.etag) = some etag) :
    ∃ document, ((d.act store (.worked n look)).world.memory store).find? id = some document ∧
      document.etag = etag := by
  have hnone : (d.sessions n).find? id = none := by
    simpa [Session.isTracked] using hunseen
  rw [sessions_worked] at hseen
  obtain ⟨t, hfound, hetag⟩ := Option.bind_eq_some_iff.mp hseen
  have hworld : (d.act store (.worked n look)).world = (d.perform n look).2 := rfl
  rw [hworld]
  rcases perform_cases hsound n look with ⟨_, _, _, hlearned⟩ | ⟨call, _, hcall, _, hlearned⟩
  · rcases hlearned id t etag hfound hetag with ⟨earlier, hearlier, _⟩ | ⟨_, hmem, _⟩
    · rw [hnone] at hearlier
      cases hearlier
    · cases hmem
  · rcases hlearned id t etag hfound hetag with ⟨earlier, hearlier, _⟩ | ⟨exchange, hmem, hshows⟩
    · rw [hnone] at hearlier
      cases hearlier
    · rw [List.mem_singleton.mp hmem, World.call_answer hsound.calm] at hshows
      obtain ⟨hsame, hholds⟩ := Memory.holds_of_shows hsound.keyed hshows
      rw [hcall, (World.call_follows hsound.calm store call).memory, hsame]
      exact hholds

theorem find?_acts_of_kept {document : Stored} (hsound : d.Sound store) (deeds : List Deed)
    (hfound : (d.world.memory store).find? id = some document)
    (hkept : ∀ moment ∈ d.allMoments store deeds, ¬ moment.Removes store id) :
    ∃ kept, ((d.acts store deeds).world.memory store).find? id = some kept ∧
      kept.sequence = document.sequence ∧ document.etag ≤ kept.etag ∧
      ((∃ moment ∈ d.allMoments store deeds, moment.Touches store id) ↔
        document.etag < kept.etag) := by
  induction deeds generalizing d document with
  | nil => exact ⟨document, hfound, rfl, Nat.le_refl _, by simp [allMoments]⟩
  | cons deed rest ih =>
      have hkeptRest : ∀ moment ∈ (d.act store deed).allMoments store rest,
          ¬ moment.Removes store id :=
        fun moment hmem => hkept moment (List.mem_append_right _ hmem)
      change ∃ kept, (((d.act store deed).acts store rest).world.memory store).find? id = _ ∧ _
      rcases act_cases hsound deed with ⟨hnone, _, hsame⟩ | ⟨call, hone, _, hafter⟩
      · rw [← hsame] at hfound
        obtain ⟨kept, hlast, hsequence, hle, htouched⟩ := ih (hsound.act deed) hfound hkeptRest
        refine ⟨kept, hlast, hsequence, hle, ?_⟩
        rw [← htouched, allMoments, hnone, List.nil_append]
      · have hstays : ¬ (d.world.memory store).Removes id call := by
          intro hremoves
          refine hkept ⟨d.world, .store store call⟩ ?_ ⟨rfl, hremoves⟩
          rw [allMoments, hone]
          exact List.mem_cons_self
        obtain ⟨middle, hmiddle, hmsequence, hmle, hmtouched⟩ :=
          Memory.find?_after_of_kept hstays hfound
        rw [← hafter] at hmiddle
        obtain ⟨kept, hlast, hsequence, hle, htouched⟩ := ih (hsound.act deed) hmiddle hkeptRest
        refine ⟨kept, hlast, hsequence.trans hmsequence, Nat.le_trans hmle hle, ?_⟩
        simp only [allMoments, hone, List.cons_append, List.nil_append, List.mem_cons,
          exists_eq_or_imp, htouched]
        have hnow : Moment.Touches ⟨d.world, .store store call⟩ store id ↔
            document.etag < middle.etag :=
          ⟨fun h => hmtouched.mp h.2, fun h => ⟨rfl, hmtouched.mpr h⟩⟩
        rw [hnow]
        omega

theorem perform_saveChanges (hcalm : d.world.Calm) :
    (d.perform n .saveChanges).1.1 =
      if (d.sessions n).batch.isEmpty then .ok ()
      else ((d.world.memory (d.sessions n).store).answer (.commit (d.sessions n).batch)).1 := by
  change (d.world.run (Work.start Work.saveChanges (d.sessions n))).1.1 = _
  rw [Work.start_saveChanges]
  split
  · rfl
  · rw [World.run_store, World.call_answer hcalm]
    generalize ((d.world.memory _).answer (.commit (d.sessions n).batch)).1 = reply
    cases reply <;> rfl

theorem holds_of_guarded_save (hsound : d.Sound store)
    (hguards : Batch.Guards (d.sessions n).batch id etag)
    (hsaved : (d.perform n .saveChanges).1.1.isOk) :
    ∃ document, (d.world.memory store).find? id = some document ∧ document.etag = etag := by
  have hbatch : ¬ (d.sessions n).batch.isEmpty := by
    intro hempty
    rw [List.isEmpty_iff.mp hempty] at hguards
    cases hguards
  rw [perform_saveChanges hsound.calm, if_neg hbatch, hsound.stores n] at hsaved
  cases hcommit : (d.world.memory store).commit (d.sessions n).batch with
  | ok next => exact Memory.etag_of_commit_guarded hcommit hguards
  | error e =>
      simp only [Memory.answer, hcommit] at hsaved
      cases hsaved

/-- In a new store, after any turns, session `n` sees a document for the first time, by the
operation `look`. After the turns `between`, those of the session included, it saves a batch that
guards the version it saw, and the save goes well. -/
structure GuardedSave (store : StoreRef) (d : Desk) (n : Nat) (look : SessionOp)
    (between : List Deed) (id : DocId) (etag : Nat) : Prop where
  reached : ∃ clock deeds, d = (start store clock).acts store deeds
  unseen : (d.sessions n).isTracked id = false
  seen : (((d.act store (.worked n look)).sessions n).find? id).bind (·.etag) = some etag
  guards :
    Batch.Guards (((d.act store (.worked n look)).acts store between).sessions n).batch id etag
  saved : (((d.act store (.worked n look)).acts store between).perform n .saveChanges).1.1.isOk

/-- Before a guarded save nobody wrote the document since it was seen, unless somebody took it away
in the meantime: by a deletion, by a purge, or with all others. -/
theorem untouched_iff_unremoved {look : SessionOp} {between : List Deed}
    (hsave : GuardedSave store d n look between id etag) :
    (∀ moment ∈ (d.act store (.worked n look)).allMoments store between,
        ¬ moment.Touches store id) ↔
      ∀ moment ∈ (d.act store (.worked n look)).allMoments store between,
        ¬ moment.Removes store id := by
  obtain ⟨clock, deeds, hreached⟩ := hsave.reached
  have hsound : d.Sound store := hreached ▸ (sound_start store clock).acts deeds
  constructor
  · intro huntouched moment hmem hremoves
    exact huntouched moment hmem hremoves.touches
  · intro hkept moment hmem htouches
    obtain ⟨document, hfound, hetag⟩ := holds_of_first_sight hsound hsave.unseen hsave.seen
    obtain ⟨kept, hlast, _, _, htouched⟩ :=
      find?_acts_of_kept (hsound.act (.worked n look)) between hfound hkept
    obtain ⟨saved, hsaved, hsame⟩ := holds_of_guarded_save
      ((hsound.act (.worked n look)).acts between) hsave.guards hsave.saved
    have hrises : document.etag < kept.etag := htouched.mp ⟨moment, hmem, htouches⟩
    rw [hlast] at hsaved
    cases hsaved
    omega

theorem untouched_hash :
    let id := Document.idFor FieldMap "a"
    let d := (start ⟨0⟩ .origin).acts ⟨0⟩
      [.called (.commit [.put id (Document.encode (FieldMap.mk ∅)) none .absent])]
    let between : List Deed := [.worked 1 (.load FieldMap id), .worked 1 .saveChanges,
      .worked 0 (.save FieldMap id ⟨Dict.ofList [("n", "1")]⟩)]
    ∀ moment ∈ (d.act ⟨0⟩ (.worked 0 (.load FieldMap id))).allMoments ⟨0⟩ between,
      ¬ moment.Touches ⟨0⟩ id := by
  intro id d between
  have hsave : GuardedSave ⟨0⟩ d 0 (.load FieldMap id) between id 1 :=
    ⟨⟨_, _, rfl⟩, by decide +kernel, by decide +kernel, by decide +kernel, by decide +kernel⟩
  exact (untouched_iff_unremoved hsave).mpr (by decide +kernel)

/-- A deletion and a new creation in between go unnoticed. -/
theorem touched_of_recreated :
    ¬ ∀ (store : StoreRef) (d : Desk) (n : Nat) (look : SessionOp) (between : List Deed)
        (id : DocId) (etag : Nat), GuardedSave store d n look between id etag →
      ∀ moment ∈ (d.act store (.worked n look)).allMoments store between,
        ¬ moment.Touches store id := by
  intro hall
  let id := Document.idFor FieldMap "a"
  let hash (n : String) : FieldMap := ⟨Dict.ofList [("n", n)]⟩
  let create (n : String) : Deed :=
    .called (.commit [.put id (Document.encode (hash n)) none .absent])
  let d := (start ⟨0⟩ .origin).acts ⟨0⟩ [create "1"]
  let between : List Deed :=
    [.called (.commit [.delete id .any]), create "2", .worked 0 (.save FieldMap id (hash "3"))]
  have hsave : GuardedSave ⟨0⟩ d 0 (.load FieldMap id) between id 1 :=
    ⟨⟨_, _, rfl⟩, by decide +kernel, by decide +kernel, by decide +kernel, by decide +kernel⟩
  have htouched : ∃ moment ∈ (d.act ⟨0⟩ (.worked 0 (.load FieldMap id))).allMoments ⟨0⟩ between,
      moment.Touches ⟨0⟩ id := by decide +kernel
  obtain ⟨moment, hmem, htouches⟩ := htouched
  exact hall _ _ _ _ _ _ _ hsave moment hmem htouches

end Simulation.Desk

end Jobyard
