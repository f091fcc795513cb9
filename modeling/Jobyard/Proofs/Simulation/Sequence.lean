import Jobyard.Proofs.Simulation.Calm

/-!
A batch beside its writes committed one by one. A store takes a batch exactly when it takes every
write of it as a batch of its own, and then both leave it the same; a batch that is refused is
refused for its first write that fails, and leaves no trace.
-/

namespace Jobyard

namespace Memory

theorem exists_first_failure {m : Memory} {batch : Batch} {e : StoreError}
    (h : m.commit batch = .error e) :
    ∃ done write rest middle, batch = done ++ write :: rest ∧ m.commit done = .ok middle ∧
      middle.commit [write] = .error e := by
  induction batch generalizing m with
  | nil => simp [commit_nil] at h
  | cons first tail ih =>
      rw [commit_cons] at h
      rcases bind_eq_error.mp h with hfirst | ⟨next, hfirst, htail⟩
      · refine ⟨[], first, tail, m, rfl, commit_nil m, ?_⟩
        rw [commit_singleton]
        exact hfirst
      · obtain ⟨done, write, rest, middle, hbatch, hdone, hwrite⟩ := ih htail
        refine ⟨first :: done, write, rest, middle, congrArg (first :: ·) hbatch, ?_, hwrite⟩
        rw [commit_cons, hfirst]
        exact hdone

end Memory

namespace Simulation.World

def commitEach (w : World) (store : StoreRef) : Batch → Except StoreError Unit × World
  | [] => (.ok (), w)
  | write :: rest =>
    match w.apply store (.commit [write]) with
    | (.ok _, next) => next.commitEach store rest
    | (.error e, next) => (.error e, next)

theorem apply_commit_of_ok {w : World} {store : StoreRef} {batch : Batch} {m : Memory}
    (h : (w.memory store).commit batch = .ok m) :
    w.apply store (.commit batch) = (.ok (), w.withMemory store m) := by
  simp only [apply, h]

theorem apply_commit_of_error {w : World} {store : StoreRef} {batch : Batch} {e : StoreError}
    (h : (w.memory store).commit batch = .error e) :
    w.apply store (.commit batch) = (.error e, w) := by
  simp only [apply, h]

theorem commitEach_of_ok {w : World} {store : StoreRef} {batch : Batch} {m : Memory}
    (h : (w.memory store).commit batch = .ok m) :
    (w.commitEach store batch).1 = .ok () ∧ Follows w (w.commitEach store batch).2 store m := by
  induction batch generalizing w with
  | nil =>
      rw [Memory.commit_nil] at h
      cases h
      exact ⟨rfl, follows_self w store⟩
  | cons write rest ih =>
      rw [Memory.commit_cons, ← Memory.commit_singleton] at h
      obtain ⟨next, hwrite, hrest⟩ := bind_eq_ok.mp h
      have hstep : w.commitEach store (write :: rest) =
          (w.withMemory store next).commitEach store rest := by
        rw [commitEach, apply_commit_of_ok hwrite]
      rw [← memory_withMemory_self w store next] at hrest
      obtain ⟨hanswer, hfollows⟩ := ih hrest
      rw [hstep]
      exact ⟨hanswer, (follows_withMemory w store next).trans hfollows⟩

theorem commitEach_of_error {w : World} {store : StoreRef} {batch : Batch} {e : StoreError}
    (h : (w.memory store).commit batch = .error e) :
    (w.commitEach store batch).1 = .error e := by
  induction batch generalizing w with
  | nil => simp [Memory.commit_nil] at h
  | cons write rest ih =>
      rw [Memory.commit_cons, ← Memory.commit_singleton] at h
      rcases bind_eq_error.mp h with hwrite | ⟨next, hwrite, hrest⟩
      · rw [commitEach, apply_commit_of_error hwrite]
      · rw [← memory_withMemory_self w store next] at hrest
        rw [commitEach, apply_commit_of_ok hwrite]
        exact ih hrest

/-- A batch is all or nothing, and all of it is its writes in order. -/
theorem commit_sequential (w : World) (store : StoreRef) (batch : Batch) :
    ((w.apply store (.commit batch)).1 = .ok () ↔ (w.commitEach store batch).1 = .ok ()) ∧
      ((w.apply store (.commit batch)).1 = .ok () → ∀ other,
        (w.apply store (.commit batch)).2.memory other =
          (w.commitEach store batch).2.memory other) ∧
      ∀ e, (w.apply store (.commit batch)).1 = .error e →
        (w.apply store (.commit batch)).2 = w ∧
          ∃ done write rest, batch = done ++ write :: rest ∧
            (w.commitEach store done).1 = .ok () ∧
            ((w.commitEach store done).2.apply store (.commit [write])).1 = .error e := by
  cases hcommit : (w.memory store).commit batch with
  | ok m =>
      obtain ⟨hanswer, hfollows⟩ := commitEach_of_ok hcommit
      rw [apply_commit_of_ok hcommit, hanswer]
      refine ⟨Iff.rfl, ?_, ?_⟩
      · intro _ other
        by_cases hother : other = store
        · subst hother
          rw [hfollows.memory]
          exact memory_withMemory_self w other m
        · rw [hfollows.others other hother]
          exact memory_withMemory_of_ne w m hother
      · intro e he
        cases he
  | error failure =>
      rw [apply_commit_of_error hcommit, commitEach_of_error hcommit]
      refine ⟨Iff.rfl, ?_, ?_⟩
      · intro hok
        cases hok
      · intro e he
        cases he
        obtain ⟨done, write, rest, middle, hbatch, hdone, hwrite⟩ :=
          Memory.exists_first_failure hcommit
        obtain ⟨hanswer, hfollows⟩ := commitEach_of_ok hdone
        rw [← hfollows.memory] at hwrite
        refine ⟨rfl, done, write, rest, hbatch, hanswer, ?_⟩
        rw [apply_commit_of_error hwrite]

namespace Sample

def revisedId : DocId := ⟨"hashes", "a"⟩

/-- Five writes of one document, each of which expects what the one before it left. -/
def revising : Batch :=
  [.put revisedId (.obj []) none .absent, .increment revisedId "n" 1 none,
    .put revisedId (.obj []) none (.exact 2), .delete revisedId (.exact 3),
    .put revisedId (.obj []) none .absent]

def interrupted : Batch :=
  [.put revisedId (.obj []) none (.exact 1), .delete revisedId (.exact 1),
    .put ⟨"hashes", "b"⟩ (.obj []) none .absent]

end Sample

theorem commit_sequential_interrupted :
    let committed := (start .origin).apply ⟨0⟩ (.commit Sample.revising)
    let w := committed.2
    committed.1 = .ok () ∧ ((start .origin).commitEach ⟨0⟩ Sample.revising).1 = .ok () ∧
      w.memory ⟨0⟩ = ((start .origin).commitEach ⟨0⟩ Sample.revising).2.memory ⟨0⟩ ∧
      (w.memory ⟨0⟩).lastSequence = 2 ∧
      ∃ e, (w.apply ⟨0⟩ (.commit Sample.interrupted)).1 = .error e ∧
        (w.apply ⟨0⟩ (.commit Sample.interrupted)).2 = w ∧
        (w.commitEach ⟨0⟩ Sample.interrupted).1 ≠ .ok () ∧
        ∃ done write rest, Sample.interrupted = done ++ write :: rest ∧
          (w.commitEach ⟨0⟩ done).1 = .ok () ∧
          ((w.commitEach ⟨0⟩ done).2.apply ⟨0⟩ (.commit [write])).1 = .error e := by
  intro committed w
  obtain ⟨hiff, hsame, -⟩ := commit_sequential (start .origin) ⟨0⟩ Sample.revising
  obtain ⟨hrefused, -, hfirst⟩ := commit_sequential w ⟨0⟩ Sample.interrupted
  have hok : committed.1 = .ok () := rfl
  have herror : (w.apply ⟨0⟩ (.commit Sample.interrupted)).1 =
      .error (.deleteMismatch Sample.revisedId (.exact 1) (some 2)) := rfl
  refine ⟨hok, hiff.mp hok, hsame hok ⟨0⟩, rfl, _, herror, (hfirst _ herror).1, ?_,
    (hfirst _ herror).2⟩
  refine fun hok => ?_
  have hcommitted := hrefused.mpr hok
  rw [herror] at hcommitted
  cases hcommitted

end Simulation.World

end Jobyard
