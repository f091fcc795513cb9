import Jobyard.Proofs.Queue.Produce
import Jobyard.Proofs.Session.Sight
import Jobyard.Proofs.Store.Rewrite

/-!
Commits in calm worlds. The batch of a session has one write for each document that it changed, and
then the writes that it deferred; what waits for the commit reaches no store.
-/

namespace Jobyard

namespace Session

def documentWrites (s : Session) : Batch :=
  s.tracked.filterMap fun entry => entry.2.write? s.optimistic entry.1

theorem batch_eq (s : Session) : s.batch = s.documentWrites ++ s.deferred := rfl

end Session

namespace Tracked

variable {t : Tracked} {optimistic : Bool} {id : DocId} {w : Write}

theorem write?_eq_some (h : t.write? optimistic id = some w) : w.id = id ∧ w.demand.isSome := by
  unfold write? at h
  split at h
  · cases h
  · obtain ⟨body, _, rfl⟩ := Option.map_eq_some_iff.mp h
    exact ⟨rfl, rfl⟩
  · split at h
    · cases h
    · cases h
      exact ⟨rfl, rfl⟩
    · cases h
      exact ⟨rfl, rfl⟩

end Tracked

namespace Session

variable {s : Session}

theorem demand_of_mem_documentWrites {w : Write} (h : w ∈ s.documentWrites) : w.demand.isSome := by
  obtain ⟨entry, _, hwrite⟩ := List.mem_filterMap.mp h
  exact (Tracked.write?_eq_some hwrite).2

theorem mem_documentWrites_iff (hdistinct : s.Distinct) {w : Write} :
    w ∈ s.documentWrites ↔
      ∃ t, s.find? w.id = some t ∧ t.write? s.optimistic w.id = some w := by
  constructor
  · intro h
    obtain ⟨⟨id, t⟩, hmem, hwrite⟩ := List.mem_filterMap.mp h
    obtain ⟨rfl, _⟩ := Tracked.write?_eq_some hwrite
    exact ⟨t, (mem_tracked_iff hdistinct).mp hmem, hwrite⟩
  · rintro ⟨t, hfound, hwrite⟩
    exact List.mem_filterMap.mpr ⟨(w.id, t), (mem_tracked_iff hdistinct).mpr hfound, hwrite⟩

theorem ids_documentWrites_sublist (s : Session) :
    (s.documentWrites.map Write.id).Sublist (s.tracked.map (·.1)) := by
  unfold documentWrites
  generalize s.tracked = tracked
  induction tracked with
  | nil => exact .slnil
  | cons first rest ih =>
      rw [List.filterMap_cons]
      split
      · exact ih.cons _
      · rename_i w hwrite
        rw [List.map_cons, List.map_cons, (Tracked.write?_eq_some hwrite).1]
        exact ih.cons_cons _

theorem nodup_ids_documentWrites (hdistinct : s.Distinct) :
    (s.documentWrites.map Write.id).Nodup :=
  hdistinct.sublist s.ids_documentWrites_sublist

theorem filter_documentWrites (hdistinct : s.Distinct) (id : DocId) :
    (s.documentWrites.filter fun w => w.id = id) =
      ((s.find? id).bind fun t => t.write? s.optimistic id).toList := by
  unfold documentWrites find?
  unfold Distinct at hdistinct
  generalize s.tracked = tracked at hdistinct
  induction tracked with
  | nil => rfl
  | cons first rest ih =>
      obtain ⟨key, t⟩ := first
      obtain ⟨hnew, hrest⟩ := List.nodup_cons.mp hdistinct
      rw [List.filterMap_cons]
      by_cases hkey : id = key
      · subst hkey
        have hnone : rest.lookup id = none := by
          rw [List.lookup_eq_none_iff]
          intro entry hentry
          exact bne_iff_ne.mpr fun hid => hnew (List.mem_map.mpr ⟨entry, hentry, hid.symm⟩)
        have hempty := ih hrest
        rw [hnone] at hempty
        rw [List.lookup_cons_self]
        simp only [Option.bind_some]
        cases hwrite : t.write? s.optimistic id with
        | none => exact hempty
        | some w =>
            have hid := (Tracked.write?_eq_some hwrite).1
            simp only [List.filter_cons, hid, decide_true, if_true, hempty]
            rfl
      · rw [List.lookup_cons, beq_false_of_ne hkey]
        simp only
        cases hwrite : t.write? s.optimistic key with
        | none => exact ih hrest
        | some w =>
            have hid := (Tracked.write?_eq_some hwrite).1
            rw [List.filter_cons_of_neg (by simpa [hid] using Ne.symm hkey)]
            exact ih hrest

theorem rewrites_of_commit {m next : Memory} (hdistinct : s.Distinct)
    (h : m.commit s.batch = .ok next) (id : DocId) :
    Memory.Rewrites (((s.find? id).bind fun t => t.write? s.optimistic id).toList ++
      s.deferred.filter fun w => w.id = id) (m.find? id) (next.find? id) := by
  rw [← filter_documentWrites hdistinct, ← List.filter_append]
  exact Memory.rewrites_of_commit h id

end Session

namespace Simulation.World

variable {w middle last : World} {store : StoreRef} {m next : Memory}

theorem follows_runAll (w : World) (actions : List AfterCommit) (store : StoreRef) :
    Follows w (w.run (Step.runAll actions)).2 store (w.memory store) := by
  induction actions generalizing w with
  | nil => exact follows_self w store
  | cons action rest ih =>
      have hfirst : Follows w (w.run action.run).2 store (w.memory store) := by
        cases action <;> exact ⟨rfl, fun _ _ => rfl, rfl, rfl, rfl, rfl⟩
      have hrest := ih (w.run action.run).2
      rw [hfirst.memory] at hrest
      change Follows w (w.run (action.run >>= fun _ => Step.runAll rest)).2 store _
      rw [run_bind]
      exact hfirst.trans hrest

theorem call_commit (hcalm : w.Calm) (store : StoreRef) (batch : Batch) :
    (w.call store (.commit batch)).1 = ((w.memory store).commit batch).map fun _ => () := by
  rw [call_answer hcalm]
  simp only [Memory.answer]
  cases (w.memory store).commit batch <;> rfl

theorem run_saveChanges (hcalm : w.Calm) {s : Session}
    (hcommit : (w.memory s.store).commit s.batch = .ok next) :
    ∃ saved after, w.run (Work.saveChanges.start s) = ((.ok (), saved), after) ∧
      Follows w after s.store next := by
  rw [Work.start_saveChanges]
  split
  · rename_i hempty
    rw [List.isEmpty_iff.mp hempty, Memory.commit_nil] at hcommit
    cases hcommit
    exact ⟨s, w, rfl, follows_self w s.store⟩
  · have hanswer := call_commit hcalm s.store s.batch
    have hfollows := call_follows hcalm s.store (.commit s.batch)
    rw [hcommit] at hanswer
    rw [Memory.after_commit_of_ok hcommit] at hfollows
    refine ⟨s.cleared, _, ?_, hfollows⟩
    rw [run_store, hanswer]
    rfl

theorem run_saveChanges_error (hcalm : w.Calm) {s : Session} {e : StoreError}
    (hcommit : (w.memory s.store).commit s.batch = .error e) :
    ∃ after, w.run (Work.saveChanges.start s) = ((.error e, s), after) ∧
      Follows w after s.store (w.memory s.store) := by
  rw [Work.start_saveChanges]
  split
  · rename_i hempty
    rw [List.isEmpty_iff.mp hempty, Memory.commit_nil] at hcommit
    cases hcommit
  · have hanswer := call_commit hcalm s.store s.batch
    have hfollows := call_follows hcalm s.store (.commit s.batch)
    rw [hcommit] at hanswer
    rw [Memory.after_commit_of_error hcommit] at hfollows
    refine ⟨_, ?_, hfollows⟩
    rw [run_store, hanswer]
    rfl

theorem run_commit (hcalm : w.Calm) {t : Transaction}
    (hcommit : (w.memory t.session.store).commit t.session.batch = .ok next) :
    ∃ committed after, w.run (Step.commit.start t) = ((.ok (), committed), after) ∧
      Follows w after t.session.store next := by
  obtain ⟨saved, middle, hsave, hfollows⟩ := run_saveChanges hcalm hcommit
  have hactions := follows_runAll middle t.afterCommit t.session.store
  rw [hfollows.memory] at hactions
  refine ⟨{ t with session := saved, afterCommit := [] }, _, ?_, hfollows.trans hactions⟩
  rw [Step.start_commit, run_bind, hsave]
  simp only [run_bind]
  rfl

theorem run_commit_error (hcalm : w.Calm) {t : Transaction} {e : StoreError}
    (hcommit : (w.memory t.session.store).commit t.session.batch = .error e) :
    ∃ failed after, w.run (Step.commit.start t) = ((.error e, failed), after) ∧
      Follows w after t.session.store (w.memory t.session.store) := by
  obtain ⟨middle, hsave, hfollows⟩ := run_saveChanges_error hcalm hcommit
  refine ⟨t, _, ?_, hfollows⟩
  rw [Step.start_commit, run_bind, hsave]
  rfl

end Simulation.World

end Jobyard
