import Jobyard.Proofs.Session.Guard
import Jobyard.Proofs.Session.Mirror

/-!
The end of a unit of work. A save that sends its changes leaves the session as new, so that what
is read next is what the store has by then. A save that has nothing to send goes well, too, but
leaves the session as it was, with all that it read before.
-/

namespace Jobyard.Simulation

def Deed.Spares (n : Nat) : Deed → Prop
  | .opened k _ | .worked k _ => k ≠ n
  | .called _ | .clocked _ => True

namespace Desk

variable {store : StoreRef} {d : Desk} {n : Nat}

theorem sessions_act_of_spares {deed : Deed} (h : deed.Spares n) :
    (d.act store deed).sessions n = d.sessions n := by
  cases deed with
  | opened k optimistic => exact if_neg (Ne.symm h)
  | worked k op => exact if_neg (Ne.symm h)
  | called call => rfl
  | clocked time => rfl

theorem sessions_acts_of_spares {between : List Deed} (h : ∀ deed ∈ between, deed.Spares n) :
    (d.acts store between).sessions n = d.sessions n := by
  induction between generalizing d with
  | nil => rfl
  | cons deed rest ih =>
      exact (ih fun other hmem => h other (List.mem_cons_of_mem deed hmem)).trans
        (sessions_act_of_spares (h deed List.mem_cons_self))

/-- A session without changes that holds nothing, so that what others do before its next read
shows in that read. -/
structure Renewed (store : StoreRef) (d : Desk) (n : Nat) : Prop where
  unchanged : (d.sessions n).hasChanges = false
  empty : (d.sessions n).tracked = []
  current : ∀ between : List Deed, (∀ deed ∈ between, deed.Spares n) →
    (d.acts store between).world.ReadsFrom ((d.acts store between).sessions n)
      ((d.acts store between).world.memory store)

theorem renewed_of_empty (hsound : d.Sound store) (htracked : (d.sessions n).tracked = [])
    (hdeferred : (d.sessions n).deferred = []) : d.Renewed store n where
  unchanged := by
    unfold Session.hasChanges
    rw [htracked, hdeferred]
    rfl
  empty := htracked
  current between hspares := by
    have hlater := hsound.acts between
    have hempty : ((d.acts store between).sessions n).tracked = [] := by
      rw [sessions_acts_of_spares hspares, htracked]
    have hreads := World.readsFrom_of_mirrors (s := (d.acts store between).sessions n) hlater.calm
      (by rw [hlater.stores n]; exact hlater.keyed) (Session.mirrors_of_empty hempty)
    rw [hlater.stores n] at hreads
    exact hreads

inductive Saves (d : Desk) (n : Nat) : (Except StoreError Unit × Session) × World → Prop
  | unsent (hbatch : (d.sessions n).batch = []) : Saves d n ((.ok (), d.sessions n), d.world)
  | sent {after : World} (hbatch : (d.sessions n).batch ≠ []) :
    Saves d n ((.ok (), (d.sessions n).cleared), after)
  | refused {e : StoreError} {after : World} (hbatch : (d.sessions n).batch ≠ [])
    (hstores : ∀ other, after.memory other = d.world.memory other) :
    Saves d n ((.error e, d.sessions n), after)

theorem saves_perform (hcalm : d.world.Calm) : Saves d n (d.perform n .saveChanges) := by
  change Saves d n (d.world.run (Work.start Work.saveChanges (d.sessions n)))
  rw [Work.start_saveChanges]
  split
  · rename_i hempty
    exact .unsent (List.isEmpty_iff.mp hempty)
  · rename_i hempty
    have hbatch : (d.sessions n).batch ≠ [] := fun h => hempty (List.isEmpty_iff.mpr h)
    have hfollows := World.call_follows hcalm (d.sessions n).store (.commit (d.sessions n).batch)
    rw [World.run_store, World.call_answer hcalm]
    cases hcommit : (d.world.memory (d.sessions n).store).commit (d.sessions n).batch with
    | ok next =>
        simp only [Memory.answer, hcommit]
        exact .sent hbatch
    | error e =>
        rw [Memory.after_commit_of_error hcommit] at hfollows
        simp only [Memory.answer, hcommit]
        refine .refused hbatch fun other => ?_
        by_cases hother : other = (d.sessions n).store
        · rw [hother]
          exact hfollows.memory
        · exact hfollows.others other hother

theorem deferred_of_batch {s : Session} (h : s.batch = []) : s.deferred = [] :=
  (List.append_eq_nil_iff.mp h).2

/-- After any turns of sessions at a new store, a save that goes well renews its session exactly if
it had something to send, or the session held nothing; one that fails changes neither the session
nor any store. -/
theorem renewed_iff_sent (store : StoreRef) (clock : Instant) (deeds : List Deed) (n : Nat) :
    let d := (start store clock).acts store deeds
    let after := d.act store (.worked n .saveChanges)
    ((d.perform n .saveChanges).1.1.isOk →
      (after.Renewed store n ↔ (d.sessions n).batch ≠ [] ∨ (d.sessions n).tracked = [])) ∧
    (¬ (d.perform n .saveChanges).1.1.isOk →
      after.sessions n = d.sessions n ∧
        ∀ other, after.world.memory other = d.world.memory other) := by
  intro d after
  have hsound : d.Sound store := (sound_start store clock).acts deeds
  have hafter : after.Sound store := hsound.act _
  have hsession : after.sessions n = (d.perform n .saveChanges).1.2 := sessions_worked store d n _
  have hworld : after.world = (d.perform n .saveChanges).2 := rfl
  have hsaves : Saves d n (d.perform n .saveChanges) := saves_perform hsound.calm
  generalize d.perform n .saveChanges = result at hsession hworld hsaves
  cases hsaves with
  | unsent hbatch =>
      -- The session is as it was, so it is empty afterwards only if it was so before.
      refine ⟨fun _ => ⟨fun hrenewed => .inr ?_, fun h => ?_⟩, fun herror => absurd rfl herror⟩
      · have hempty := hrenewed.empty
        rw [hsession] at hempty
        exact hempty
      · have htracked := h.resolve_left fun hne => hne hbatch
        refine renewed_of_empty hafter ?_ ?_
        · rw [hsession, htracked]
        · rw [hsession, deferred_of_batch hbatch]
  | sent hbatch =>
      refine ⟨fun _ => ⟨fun _ => .inl hbatch, fun _ => ?_⟩, fun herror => absurd rfl herror⟩
      refine renewed_of_empty hafter ?_ ?_
      · rw [hsession]
        rfl
      · rw [hsession]
        rfl
  | refused hbatch hstores =>
      refine ⟨fun hok => (nomatch hok), fun _ => ⟨hsession, ?_⟩⟩
      rw [hworld]
      exact hstores

namespace Sample

def hashId : DocId := Document.idFor FieldMap "a"

def hash (n : String) : FieldMap := ⟨Dict.ofList [("n", n)]⟩

def written (n : String) (expected : Expected) : Deed :=
  .called (.commit [.put hashId (Document.encode (hash n)) none expected])

def loading : List Deed := [written "1" .absent, .worked 0 (.load FieldMap hashId)]

def changing : List Deed := loading ++ [.worked 0 (.save FieldMap hashId (hash "2"))]

def desk (deeds : List Deed) : Desk := (start ⟨0⟩ .origin).acts ⟨0⟩ deeds

end Sample

open Sample in
/-- A session changes the hash that it loaded and saves it; if somebody else wrote it before, the
save fails. -/
theorem renewed_of_changed :
    ((desk changing).perform 0 .saveChanges).1.1.isOk ∧
      ((desk changing).act ⟨0⟩ (.worked 0 .saveChanges)).Renewed ⟨0⟩ 0 ∧
      ¬ ((desk (changing ++ [written "3" .any])).perform 0 .saveChanges).1.1.isOk ∧
      ((desk (changing ++ [written "3" .any])).act ⟨0⟩ (.worked 0 .saveChanges)).sessions 0 =
        (desk (changing ++ [written "3" .any])).sessions 0 := by
  have hsaved : ((desk changing).perform 0 .saveChanges).1.1.isOk := by decide +kernel
  have hrefused : ¬ ((desk (changing ++ [written "3" .any])).perform 0 .saveChanges).1.1.isOk := by
    decide +kernel
  have hsent : ¬ ((desk changing).sessions 0).batch.isEmpty := by decide +kernel
  refine ⟨hsaved, ((renewed_iff_sent ⟨0⟩ .origin changing 0).1 hsaved).mpr (.inl fun h => ?_),
    hrefused, ((renewed_iff_sent ⟨0⟩ .origin (changing ++ [written "3" .any]) 0).2 hrefused).1⟩
  exact hsent (List.isEmpty_iff.mpr h)

open Sample in
/-- A session that only read saves without an error, and goes on to read what it read before. -/
theorem stale_after_unsent :
    ¬ ∀ (store : StoreRef) (clock : Instant) (deeds : List Deed) (n : Nat),
      let d := (start store clock).acts store deeds
      (d.perform n .saveChanges).1.1.isOk →
        (d.act store (.worked n .saveChanges)).Renewed store n := by
  intro hall
  have hrenewed := hall ⟨0⟩ .origin loading 0 (by decide +kernel)
  have hspares : ∀ deed ∈ [written "2" .any], deed.Spares 0 := fun deed hmem => by
    rw [List.mem_singleton.mp hmem]
    trivial
  have hload := (hrenewed.current [written "2" .any] hspares).load FieldMap hashId
  have hdiffer :
      ((desk (loading ++ [.worked 0 .saveChanges, written "2" .any])).world.run
          ((Work.load FieldMap hashId).start ((desk (loading ++ [.worked 0 .saveChanges,
            written "2" .any])).sessions 0))).1.1.toOption ≠
        (((desk (loading ++ [.worked 0 .saveChanges, written "2" .any])).world.memory ⟨0⟩).read
          FieldMap hashId).toOption := by
    decide +kernel
  exact hdiffer (congrArg Except.toOption hload)

end Desk

end Jobyard.Simulation
