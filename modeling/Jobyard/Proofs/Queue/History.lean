import Jobyard.Proofs.Queue.Fate
import Jobyard.Proofs.Simulation.Play

/-!
What the history of a run tells about the queue entries of its store: which are there, what they
say, and which stamp they carry.
-/

namespace Jobyard.Simulation

open Change

abbrev History := List (Event Task Outcome)

namespace History

def addedIn (history : History) : List (DocId × QueueEntry) :=
  history.flatMap fun event => added event.change?

def RemovedIn (history : History) (id : DocId) : Prop :=
  ∃ event ∈ history, Removes event.change? id

def stampAfter (id : DocId) : History → Option Instant
  | [] => none
  | event :: earlier => (stamp? id event.change?).getD (stampAfter id earlier)

theorem addedIn_cons (event : Event Task Outcome) (history : History) :
    addedIn (event :: history) = added event.change? ++ addedIn history := rfl

theorem addedIn_append (more history : History) :
    addedIn (more ++ history) = addedIn more ++ addedIn history := List.flatMap_append

theorem removedIn_cons {event : Event Task Outcome} {history : History} {id : DocId} :
    RemovedIn (event :: history) id ↔ Removes event.change? id ∨ RemovedIn history id := by
  simp [RemovedIn]

theorem stampAfter_cons (id : DocId) (event : Event Task Outcome) (history : History) :
    stampAfter id (event :: history) = (stamp? id event.change?).getD (stampAfter id history) := rfl

end History

open History

abbrev Shift (store : StoreRef) := Yard.Run Task.program (Task.At store)

structure Recorded (store : StoreRef) (history : History) (y : Floor) : Prop where
  sound : Floor.Sound store y
  published : ∀ id ∈ (addedIn history).map (·.1), IsEntry id ∧ Yard.Published y id
  nodup : ((addedIn history).map (·.1)).Nodup
  present : ∀ id, IsEntry id → (((y.world.memory store).find? id).isSome ↔
    id ∈ (addedIn history).map (·.1) ∧ ¬ RemovedIn history id)
  removed : ∀ id, IsEntry id → RemovedIn history id → id ∈ (addedIn history).map (·.1)
  stamped : ∀ id, IsEntry id → id ∉ (addedIn history).map (·.1) → stampAfter id history = none
  contents : ∀ id entry d, (id, entry) ∈ addedIn history →
    (y.world.memory store).find? id = some d →
      Document.decode? d.body = some { entry with fetchedAt := stampAfter id history }

theorem recorded_start (store : StoreRef) (clock : Instant) :
    Recorded store [] (Yard.start clock) where
  sound := Floor.sound_start store clock
  published _ h := nomatch h
  nodup := List.nodup_nil
  present id _ := by
    change (none : Option Stored).isSome ↔ _
    simp [addedIn]
  removed _ _ := fun ⟨_, h, _⟩ => nomatch h
  stamped _ _ _ := rfl
  contents _ _ _ h := nomatch h

theorem Effect.nodup_added {m next : Memory} {change : Option Change}
    (heffect : Effect m next change) : ((added change).map (·.1)).Nodup := by
  cases change with
  | none => exact List.nodup_nil
  | some change =>
      cases change with
      | created entries => exact heffect.1
      | _ => exact List.nodup_nil

theorem Effect.find?_added {m next : Memory} {change : Option Change}
    (heffect : Effect m next change) {id : DocId} {entry : QueueEntry}
    (hadded : (id, entry) ∈ added change) :
    IsEntry id ∧ stamp? id change = none ∧
      ∃ d, next.find? id = some d ∧ d.body = Document.encode entry := by
  obtain ⟨entries, rfl, hmem⟩ := exists_of_mem_added hadded
  obtain ⟨hentry, _, d, hfound, hbody, _⟩ := heffect.2.1 _ hmem
  exact ⟨hentry, rfl, d, hfound, hbody⟩

theorem Task.fetchedAt_of_mem_entries {task : Task} {entry : QueueEntry}
    (h : entry ∈ task.entries) : entry.fetchedAt = none := by
  cases task with
  | enqueue q queue jobId =>
      rw [List.mem_singleton.mp h]
      rfl
  | enqueueAll store routing jobs =>
      obtain ⟨job, _, rfl⟩ := List.mem_map.mp h
      rfl
  | _ => cases h

namespace Recorded

variable {store : StoreRef} {y last : Floor} {history : History} {event : Event Task Outcome}

theorem known_of_find? (h : Recorded store history y) {id : DocId} {d : Stored}
    (hentry : IsEntry id) (hfound : (y.world.memory store).find? id = some d) :
    id ∈ (addedIn history).map (·.1) ∧ ¬ RemovedIn history id :=
  (h.present id hentry).mp (Option.isSome_of_eq_some hfound)

theorem exists_created (h : Recorded store history y) {id : DocId} {d : Stored}
    {entry : QueueEntry} (hentry : IsEntry id)
    (hholds : Holds (y.world.memory store) id d entry) :
    ∃ created, (id, created) ∈ addedIn history ∧
      entry = { created with fetchedAt := stampAfter id history } := by
  obtain ⟨created, hmem, rfl⟩ := List.mem_map.mp (h.known_of_find? hentry hholds.1).1
  have hdecoded := h.contents created.1 created.2 d hmem hholds.1
  rw [hholds.2] at hdecoded
  exact ⟨created.2, hmem, Option.some.inj hdecoded⟩

theorem not_mem_of_added (h : Recorded store history y)
    (hstep : Yard.Step Task.program (Task.At store) y event last) {id : DocId}
    (hadded : id ∈ (added event.change?).map (·.1)) : id ∉ (addedIn history).map (·.1) := by
  intro hmem
  obtain ⟨created, hcreated, rfl⟩ := List.mem_map.mp hadded
  exact (Floor.published_of_added h.sound hstep hcreated).1 (h.published _ hmem).2

theorem fetchedAt_of_added {id : DocId} {entry : QueueEntry}
    (hadded : (id, entry) ∈ added event.change?) : entry.fetchedAt = none := by
  obtain ⟨entries, hchange, hmem⟩ := exists_of_mem_added hadded
  cases event with
  | began n task => cases hchange
  | clocked time => cases hchange
  | proceeded n thread =>
      obtain ⟨_, rfl, _⟩ := Thread.change?_created hchange
      exact Task.fetchedAt_of_mem_entries (List.of_mem_zip hmem).2

theorem present_step (h : Recorded store history y)
    (hstep : Yard.Step Task.program (Task.At store) y event last) {id : DocId}
    (hentry : IsEntry id) :
    ((last.world.memory store).find? id).isSome ↔
      id ∈ (addedIn (event :: history)).map (·.1) ∧ ¬ RemovedIn (event :: history) id := by
  have heffect := Floor.effect_of_step h.sound hstep
  rw [addedIn_cons, List.map_append, List.mem_append, removedIn_cons]
  cases heffect.fate hentry with
  | kept hsame hstamp hadded hremoves =>
      rw [hsame, h.present id hentry]
      simp only [hadded, hremoves, false_or]
  | created entry d hnew hfound hbody hexpiry hstamp hadded hremoves =>
      have hmem : id ∈ (added event.change?).map (·.1) := List.mem_map.mpr ⟨_, hadded, rfl⟩
      have hunremoved : ¬ RemovedIn history id := fun hremoved =>
        h.not_mem_of_added hstep hmem (h.removed id hentry hremoved)
      simp only [hfound, hmem, hremoves, hunremoved, Option.isSome_some, true_or, or_self,
        not_false_eq_true, and_self]
  | rewritten d entry stamp hholds hfound hstamp hadded hremoves =>
      obtain ⟨hmem, hunremoved⟩ := h.known_of_find? hentry hholds.1
      simp only [hfound, hmem, hremoves, hunremoved, Option.isSome_some, or_true, or_self,
        not_false_eq_true, and_self]
  | removed d entry hholds hgone hstamp hadded hremoves =>
      simp only [hgone, hremoves, Option.isSome_none, Bool.false_eq_true, true_or,
        not_true_eq_false, and_false]

theorem removed_step (h : Recorded store history y)
    (hstep : Yard.Step Task.program (Task.At store) y event last) {id : DocId}
    (hentry : IsEntry id) (hremoved : RemovedIn (event :: history) id) :
    id ∈ (addedIn (event :: history)).map (·.1) := by
  rw [addedIn_cons, List.map_append, List.mem_append]
  right
  rcases removedIn_cons.mp hremoved with hnow | hearlier
  · cases (Floor.effect_of_step h.sound hstep).fate hentry with
    | removed d entry hholds => exact (h.known_of_find? hentry hholds.1).1
    | kept _ _ _ hremoves => exact absurd hnow hremoves
    | created _ _ _ _ _ _ _ _ hremoves => exact absurd hnow hremoves
    | rewritten _ _ _ _ _ _ _ hremoves => exact absurd hnow hremoves
  · exact h.removed id hentry hearlier

theorem stamped_step (h : Recorded store history y)
    (hstep : Yard.Step Task.program (Task.At store) y event last) {id : DocId}
    (hentry : IsEntry id) (hnew : id ∉ (addedIn (event :: history)).map (·.1)) :
    stampAfter id (event :: history) = none := by
  rw [addedIn_cons, List.map_append, List.mem_append, not_or] at hnew
  have hearlier := h.stamped id hentry hnew.2
  rw [stampAfter_cons]
  cases (Floor.effect_of_step h.sound hstep).fate hentry with
  | kept _ hstamp => rw [hstamp, hearlier, Option.getD_none]
  | created _ _ _ _ _ _ hstamp => rw [hstamp, hearlier, Option.getD_none]
  | removed _ _ _ _ hstamp => rw [hstamp, hearlier, Option.getD_none]
  | rewritten d entry stamp hholds => exact absurd (h.known_of_find? hentry hholds.1).1 hnew.2

theorem contents_step (h : Recorded store history y)
    (hstep : Yard.Step Task.program (Task.At store) y event last) {id : DocId}
    {entry : QueueEntry} {d : Stored} (hmem : (id, entry) ∈ addedIn (event :: history))
    (hfound : (last.world.memory store).find? id = some d) :
    Document.decode? d.body =
      some { entry with fetchedAt := stampAfter id (event :: history) } := by
  have heffect := Floor.effect_of_step h.sound hstep
  rw [addedIn_cons] at hmem
  rw [stampAfter_cons]
  rcases List.mem_append.mp hmem with hadded | hearlier
  · obtain ⟨hentry, hstamp, other, hother, hbody⟩ := heffect.find?_added hadded
    rw [hother] at hfound
    cases hfound
    have hnew := h.not_mem_of_added hstep (List.mem_map.mpr ⟨_, hadded, rfl⟩)
    rw [hstamp, h.stamped id hentry hnew, Option.getD_none, hbody, QueueEntry.decode?_encode,
      ← fetchedAt_of_added hadded]
  · have hknown : id ∈ (addedIn history).map (·.1) := List.mem_map.mpr ⟨_, hearlier, rfl⟩
    have hentry := (h.published id hknown).1
    cases heffect.fate hentry with
    | kept hsame hstamp =>
        rw [hstamp, Option.getD_none]
        exact h.contents id entry d hearlier (hsame.symm.trans hfound)
    | created other _ _ _ _ _ _ hadded =>
        exact absurd hknown (h.not_mem_of_added hstep (List.mem_map.mpr ⟨_, hadded, rfl⟩))
    | removed _ _ _ hgone =>
        rw [hgone] at hfound
        cases hfound
    | rewritten other old stamp hholds hother hstamp =>
        rw [hother] at hfound
        cases hfound
        -- The entry that was rewritten is the one that the history knew, so only stamps differ.
        have hold := h.contents id entry other hearlier hholds.1
        rw [hholds.2] at hold
        cases hold
        rw [hstamp, Option.getD_some]
        exact QueueEntry.decode?_encode _

theorem step (h : Recorded store history y)
    (hstep : Yard.Step Task.program (Task.At store) y event last) :
    Recorded store (event :: history) last where
  sound := h.sound.step hstep
  published id hmem := by
    rw [addedIn_cons, List.map_append] at hmem
    rcases List.mem_append.mp hmem with hadded | hearlier
    · obtain ⟨created, hcreated, rfl⟩ := List.mem_map.mp hadded
      have hentry := ((Floor.effect_of_step h.sound hstep).find?_added hcreated).1
      exact ⟨hentry, (Floor.published_of_added h.sound hstep hcreated).2⟩
    · obtain ⟨hentry, hpublished⟩ := h.published id hearlier
      exact ⟨hentry, hpublished.step hstep⟩
  nodup := by
    rw [addedIn_cons, List.map_append, List.nodup_append]
    refine ⟨(Floor.effect_of_step h.sound hstep).nodup_added, h.nodup, ?_⟩
    rintro id hadded other hearlier rfl
    exact h.not_mem_of_added hstep hadded hearlier
  present _ hentry := h.present_step hstep hentry
  removed _ hentry := h.removed_step hstep hentry
  stamped _ hentry := h.stamped_step hstep hentry
  contents _ _ _ hmem := h.contents_step hstep hmem

end Recorded

theorem recorded_of_run {store : StoreRef} {clock : Instant} {history : History} {y : Floor}
    (hrun : Shift store (Yard.start clock) history y) : Recorded store history y :=
  hrun.invariant (recorded_start store clock) fun _ _ _ _ h hstep => h.step hstep

theorem exists_parts {history : History} {k : Nat} (h : k < history.length) :
    ∃ event before, history = history.take k ++ event :: before ∧ history[k]? = some event := by
  refine ⟨history[k], history.drop (k + 1), ?_, List.getElem?_eq_getElem h⟩
  rw [List.getElem_cons_drop, List.take_append_drop]

def played (moves : List (Move Task)) : History × Floor :=
  Yard.play Task.program moves ([], Yard.start .origin)

theorem run_played {admits : Task → Prop} {moves : List (Move Task)}
    (hadmits : ∀ n task, .begin n task ∈ moves → admits task) :
    Yard.Run Task.program admits (Yard.start .origin) (played moves).1 (played moves).2 :=
  Yard.run_play hadmits .refl

namespace Sample

def entryId : DocId := Document.idFor QueueEntry (freshText 1)

def leaseAt (now : Instant) : Lease :=
  .ofEntry queue.store entryId (JobQueue.stamped (.pending "default" ⟨"1"⟩) now)

def produce (n : Nat) : List (Move Task) := Move.whole n (.enqueue queue "default" ⟨"1"⟩) 3

def consume (n turns : Nat) : List (Move Task) :=
  Move.whole n (.dequeue queue ["default"] ⟨0⟩ 1) turns

end Sample

end Jobyard.Simulation
