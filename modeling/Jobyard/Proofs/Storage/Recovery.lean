import Jobyard.Proofs.Queue.Wakeup
import Jobyard.Proofs.Sql.Identity
import Jobyard.Proofs.Storage.Confined

/-!
Whether what a storage writes can be read back from a table. A table keeps the text of an
identifier only, and its reader takes every text but one with an empty key. Nothing that writes
looks at the keys it is given, so what is not to be lost must not be named by an empty key.
-/

namespace Jobyard

def Exchange.sent? (store : StoreRef) : Exchange → Option Batch
  | ⟨.store target (.commit batch), _⟩ => if target = store then some batch else none
  | _ => none

theorem Exchange.sent?_eq_some_iff {store : StoreRef} {exchange : Exchange} {batch : Batch} :
    exchange.sent? store = some batch ↔ exchange.request = .store store (.commit batch) := by
  obtain ⟨request, reply⟩ := exchange
  constructor
  · intro h
    unfold sent? at h
    split at h
    · rename_i heq
      split at h
      · rename_i htarget
        cases h
        cases heq
        rw [htarget]
      · cases h
    · cases h
  · rintro rfl
    exact if_pos rfl

namespace Simulation

namespace World

variable {places : DocId → Prop} {store : StoreRef} {w next : World} {request : Request}
  {reply : request.Reply}

theorem isWithin_of_reacts (hcalm : w.Calm) (hkeyed : (w.memory store).Keyed)
    (hm : ∀ id d, (w.memory store).find? id = some d → places id)
    (hdrawn : ∀ text, (⟨request, reply⟩ : Exchange) = ⟨.freshText, text⟩ →
      places (Document.idFor Job text) ∧ places (Document.idFor QueueEntry text))
    (h : w.Reacts request reply next) : Exchange.IsWithin places store ⟨request, reply⟩ where
  loaded id d hloads := hm id d (find?_of_loads hcalm h hloads).1
  found _ id hfinds := by
    obtain ⟨_, d, _, _, _, hfound, _⟩ := found_of_finds hcalm hkeyed h hfinds
    exact hm id d hfound
  drawn := hdrawn

/-- A store is within places as long as the batches that it is sent are. -/
theorem places_of_reacts (hcalm : w.Calm)
    (hm : ∀ id d, (w.memory store).find? id = some d → places id)
    (hbatch : ∀ batch, request = .store store (.commit batch) → ∀ w ∈ batch, places w.id)
    (h : w.Reacts request reply next) :
    ∀ id d, (next.memory store).find? id = some d → places id := by
  intro id d hfound
  cases haccepted : Exchange.accepted? ⟨request, reply⟩ with
  | none =>
      rcases find?_of_unaccepted hcalm h haccepted store id with hsame | hnone
      · exact hm id d (hsame.symm.trans hfound)
      · rw [hnone] at hfound
        cases hfound
  | some batch =>
      obtain ⟨target, hrequest, hcommit, hothers⟩ := commit_of_accepted hcalm h haccepted
      by_cases htarget : store = target
      · subst htarget
        by_cases hwritten : ∃ w ∈ batch, w.id = id
        · obtain ⟨w, hw, rfl⟩ := hwritten
          exact hbatch batch hrequest w hw
        · have hsame := Memory.find?_commit_of_forall_ne hcommit
            fun w hw hid => hwritten ⟨w, hw, hid⟩
          exact hm id d (hsame.symm.trans hfound)
      · rw [hothers store htarget] at hfound
        exact hm id d hfound

end World

namespace StorageYard

def Sends (store : StoreRef) (history : List (Event StorageTask Unit)) (batch : Batch) : Prop :=
  ∃ n, ∃ exchange ∈ heard n history, exchange.sent? store = some batch

def Writes (store : StoreRef) (history : List (Event StorageTask Unit)) (id : DocId) : Prop :=
  ∃ batch, Sends store history batch ∧ ∃ w ∈ batch, w.id = id

variable {places : DocId → Prop} {store : StoreRef} {clock : Instant} {y : StorageYard}
  {history : List (Event StorageTask Unit)} {event : Event StorageTask Unit} {id : DocId}

theorem Writes.cons (h : Writes store history id) : Writes store (event :: history) id := by
  obtain ⟨batch, ⟨n, exchange, hmem, hsent⟩, hw⟩ := h
  refine ⟨batch, ⟨n, exchange, ?_, hsent⟩, hw⟩
  rw [heard_cons]
  exact List.mem_append_right _ hmem

theorem writes_of_stored
    (hrun : Yard.Run StorageTask.program (StorageTask.At store) (Yard.start clock) history y) :
    ∀ id d, (y.world.memory store).find? id = some d → Writes store history id := by
  induction hrun with
  | refl => exact fun _ _ h => nomatch h
  | step hrun hstep ih =>
      rcases hstep.heard_cases with ⟨_, time, hworld⟩ | ⟨n, exchange, hheard, hreacts⟩
      · rw [hworld]
        exact fun id d hfound => (ih id d hfound).cons
      · refine World.places_of_reacts (hrun.calm (World.calm_start clock))
          (fun id d hfound => (ih id d hfound).cons) (fun batch heq w hw => ?_) hreacts
        refine ⟨batch, ⟨n, exchange, ?_, Exchange.sent?_eq_some_iff.mpr heq⟩, w, hw, rfl⟩
        rw [heard_cons, hheard]
        exact List.mem_cons_self

section Places

abbrev AtPlaces (places : DocId → Prop) (store : StoreRef) (task : StorageTask) : Prop :=
  task.At store ∧ task.IsWithin places

theorem heeds_of_run
    (hrun : Yard.Run StorageTask.program (AtPlaces places store) (Yard.start clock) history y)
    (n : Nat) : (heard n history).Heeds (WritesWithin places store) := by
  by_cases hempty : heard n history = []
  · rw [hempty]
    trivial
  · obtain ⟨exchange, hmem⟩ := List.exists_mem_of_ne_nil _ hempty
    obtain ⟨_, _, hheeds, _⟩ := hrun.conduct_of_heard
      (fun _ h => StorageTask.conforms_within h.1 h.2) hmem
    exact hheeds

theorem within_of_run
    (hrun : Yard.Run StorageTask.program (AtPlaces places store) (Yard.start clock) history y)
    (hdrawn : ∀ n, ∀ text ∈ (heard n history).drawn,
      places (Document.idFor Job text) ∧ places (Document.idFor QueueEntry text)) :
    (∀ id d, (y.world.memory store).find? id = some d → places id) ∧
      ∀ n, (heard n history).IsWithin places store := by
  induction hrun with
  | refl => exact ⟨fun _ _ h => (nomatch h), fun _ _ h => nomatch h⟩
  | step hrun hstep ih =>
      rename_i history event middle last
      have hbefore : ∀ n, ∀ exchange ∈ heard n history, exchange ∈ heard n (event :: history) := by
        intro n exchange hmem
        rw [heard_cons]
        exact List.mem_append_right _ hmem
      obtain ⟨hm, hlogs⟩ := ih fun n text htext =>
        hdrawn n text (Log.mem_drawn_iff.mpr (hbefore n _ (Log.mem_drawn_iff.mp htext)))
      have hcalm := hrun.calm (World.calm_start clock)
      have hempty : ((Yard.start clock : StorageYard).world.memory store).Keyed :=
        Memory.keyed_empty
      have hkeyed := hrun.keyed (World.calm_start clock) hempty
      rcases hstep.heard_cases with ⟨hsilent, time, hworld⟩ | ⟨n, exchange, hheard, hreacts⟩
      · refine ⟨by rwa [hworld], fun k => ?_⟩
        rw [heard_cons, hsilent k]
        exact hlogs k
      · have hself : heard n (event :: history) = exchange :: heard n history := by
          rw [heard_cons, hheard]
          rfl
        have hheeds := heeds_of_run (hrun.step hstep) n
        rw [hself] at hheeds
        refine ⟨World.places_of_reacts hcalm hm
          (fun batch heq => hheeds.1 batch heq (hlogs n)) hreacts, fun k => ?_⟩
        by_cases hk : k = n
        · subst hk
          rw [hself]
          refine List.forall_mem_cons.mpr
            ⟨World.isWithin_of_reacts hcalm hkeyed hm (fun text heq => ?_) hreacts, hlogs k⟩
          refine hdrawn k text (Log.mem_drawn_iff.mpr ?_)
          rw [hself, ← heq]
          exact List.mem_cons_self
        · have hnone : event.heard? k = none := by
            cases hother : event.heard? k with
            | none => rfl
            | some other => exact absurd (heard?_unique hheard hother).1 hk
          rw [heard_cons, hnone]
          exact hlogs k

theorem places_of_writes
    (hrun : Yard.Run StorageTask.program (AtPlaces places store) (Yard.start clock) history y)
    (hdrawn : ∀ n, ∀ text ∈ (heard n history).drawn,
      places (Document.idFor Job text) ∧ places (Document.idFor QueueEntry text))
    (hwrites : Writes store history id) : places id := by
  obtain ⟨batch, ⟨n, exchange, hmem, hsent⟩, w, hw, rfl⟩ := hwrites
  have hwithin := (within_of_run hrun hdrawn).2 n
  obtain ⟨front, earlier, hsplit, hallowed⟩ := (heeds_of_run hrun n).exists_of_mem hmem
  refine hallowed batch (Exchange.sent?_eq_some_iff.mp hsent) (fun other hother => ?_) w hw
  refine hwithin other ?_
  rw [hsplit]
  exact List.mem_append_right front (List.mem_cons_of_mem _ hother)

end Places

theorem isFiled_edit (e : Edit) : e.id.IsFiled := by
  cases e <;> exact DocId.isFiled_iff.mpr (of_decide_eq_true rfl)

theorem isWithin_isFiled (task : StorageTask) : task.IsWithin DocId.IsFiled := by
  cases task with
  | transact c plan =>
      change plan.All (Operation.IsWithin DocId.IsFiled)
      induction plan with
      | drop => trivial
      | commit => trivial
      | perform op next ih =>
          refine ⟨?_, ih⟩
          cases op with
          | edit e => exact isFiled_edit e
          | addToQueue queue jobId => trivial
  | setJobParameter | setFields | announceServer | heartbeat | removeServer =>
      exact DocId.isFiled_iff.mpr (of_decide_eq_true rfl)
  | _ => trivial

/-- How a table keeps what is written in a history: the statements of each batch are about its
documents, different documents have different texts, and a document is read back exactly if its key
is not empty. -/
structure Tabled (store : StoreRef) (history : List (Event StorageTask Unit)) : Prop where
  addressed : ∀ batch, Sends store history batch → ∀ said result,
    Sql.Held (Sql.Talk.commit batch).run said result → ∀ x ∈ said, x.isStatement →
      ∃ w ∈ batch, x.request.Addresses w.id
  distinct : ∀ id other, Writes store history id → Writes store history other →
    id.text = other.text → id = other
  recovered_iff : ∀ id, Writes store history id → (Sql.Recovered id ↔ id.key ≠ "")

theorem isFiled_of_writes
    (hrun : Yard.Run StorageTask.program (StorageTask.At store) (Yard.start clock) history y)
    (hwrites : Writes store history id) : id.IsFiled := by
  refine places_of_writes (hrun.restrict fun _ task _ => isWithin_isFiled task) ?_ hwrites
  exact fun _ _ _ => ⟨DocId.isFiled_iff.mpr (of_decide_eq_true rfl),
    DocId.isFiled_iff.mpr (of_decide_eq_true rfl)⟩

theorem tabled_of_run
    (hrun : Yard.Run StorageTask.program (StorageTask.At store) (Yard.start clock) history y) :
    Tabled store history where
  addressed _ _ _ _ hheld _ hx hstatement := Sql.addressed_of_held hheld hx hstatement
  distinct _ _ hid hother :=
    DocId.eq_of_text_eq (isFiled_of_writes hrun hid) (isFiled_of_writes hrun hother)
  recovered_iff _ hwrites := Sql.recovered_iff (isFiled_of_writes hrun hwrites)

/-- Texts are given to all documents of the collections one by one, and are read back unless a key
is empty. So whatever the order of their turns: if neither the tasks nor the fresh texts name an
empty key, then all that is written, and all that a store has, is read back. -/
theorem recovered_of_named
    (hrun : Yard.Run StorageTask.program (StorageTask.At store) (Yard.start clock) history y) :
    (∀ entry ∈ Kind.all, ∀ parts,
      Sql.Recovered (DocId.ofParts entry.2.collection parts) ↔ parts ≠ [] ∧ parts ≠ [""]) ∧
    (∀ id other : DocId, id.IsFiled → other.IsFiled → id.text = other.text → id = other) ∧
    Tabled store history ∧
    (∀ id d, (y.world.memory store).find? id = some d → Writes store history id) ∧
    ((∀ n task, .began n task ∈ history → task.IsWithin (·.key ≠ "")) → "" ∉ y.world.issued →
      ∀ id, Writes store history id → Sql.Recovered id) := by
  refine ⟨fun _ hkind => Sql.recovered_ofParts_iff hkind, fun _ _ => DocId.eq_of_text_eq,
    tabled_of_run hrun, writes_of_stored hrun, fun hnamed hissued id hwrites => ?_⟩
  refine ((tabled_of_run hrun).recovered_iff id hwrites).mpr ?_
  have hfresh : ∀ n, ∀ text ∈ (heard n history).drawn, text ≠ "" := by
    rintro n _ htext rfl
    rw [← hrun.logAt_start n] at htext
    exact hissued (hrun.apart.issued n "" htext)
  have hkeys : ∀ id, Writes store history id → id.key ≠ "" := fun id =>
    places_of_writes (hrun.restrict hnamed)
      fun n text htext => ⟨hfresh n text htext, hfresh n text htext⟩
  exact hkeys id hwrites

namespace Sample

def counting (key : String) : StorageTask :=
  .transact Sample.connection (.perform (.edit (.addToCounter key 1 none)) fun _ => .commit)

end Sample

theorem recovered_counter :
    let played := Yard.play StorageTask.program (Move.whole 0 (Sample.counting "a/b") 2)
      ([], Yard.start .origin)
    Writes ⟨0⟩ played.1 (Document.idFor Counter "a/b") ∧
      Sql.Recovered (Document.idFor Counter "a/b") := by
  intro played
  have hmoves : ∀ n task, .begin n task ∈ Move.whole 0 (Sample.counting "a/b") 2 →
      task.At ⟨0⟩ ∧ task.IsWithin (·.key ≠ "") := by
    intro n task hmem
    obtain ⟨_, rfl⟩ := Move.begin_mem_whole.mp hmem
    have hkey : "a/b" ≠ "" := by decide
    exact ⟨rfl, hkey, fun _ => trivial⟩
  have hrun : Yard.Run StorageTask.program (StorageTask.At ⟨0⟩) (Yard.start .origin) played.1
      played.2 := Yard.run_play (fun n task h => (hmoves n task h).1) .refl
  have hnamed : Yard.Run StorageTask.program (StorageTask.IsWithin (·.key ≠ ""))
      (Yard.start .origin) played.1 played.2 :=
    Yard.run_play (fun n task h => (hmoves n task h).2) .refl
  obtain ⟨_, _, _, hstored, hrecovered⟩ := recovered_of_named hrun
  have hfound : ((played.2.world.memory ⟨0⟩).find? (Document.idFor Counter "a/b")).isSome := by
    decide +kernel
  obtain ⟨d, hd⟩ := Option.isSome_iff_exists.mp hfound
  have hwrites := hstored _ d hd
  exact ⟨hwrites, hrecovered (fun _ _ => hnamed.admits_of_began) (by decide +kernel) _ hwrites⟩

/-- A counter with an empty key is committed, and its text is not read back. -/
theorem unread_empty_key :
    ¬ ∀ (store : StoreRef) (clock : Instant) (history : List (Event StorageTask Unit))
        (y : StorageYard),
      Yard.Run StorageTask.program (StorageTask.At store) (Yard.start clock) history y →
      ∀ id d, (y.world.memory store).find? id = some d → DocId.parse id.text = .ok id := by
  intro hall
  let last := (Yard.play StorageTask.program (Move.whole 0 (Sample.counting "") 2)
    ([], Yard.start .origin)).2
  have hmoves : ∀ n task, .begin n task ∈ Move.whole 0 (Sample.counting "") 2 →
      task.At ⟨0⟩ := by
    intro n task hmem
    obtain ⟨_, rfl⟩ := Move.begin_mem_whole.mp hmem
    rfl
  have hfound : ((last.world.memory ⟨0⟩).find? (Document.idFor Counter "")).isSome := by
    decide +kernel
  obtain ⟨d, hd⟩ := Option.isSome_iff_exists.mp hfound
  have hread := hall ⟨0⟩ .origin _ last (Yard.run_play hmoves .refl) _ d hd
  cases hread

end StorageYard

end Simulation

end Jobyard
