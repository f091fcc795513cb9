import Jobyard.Proofs.Queue.Stamp

/-!
Ownership of an entry. It is told by the stamp alone, so a lease that others have superseded is
harmless as long as none of them carries its stamp.
-/

namespace Jobyard.Simulation

open Change History

def Task.lease? : Task → Option Lease
  | .acknowledge l => some l
  | .abandon l => some l
  | .drop l => some l
  | _ => none

def Event.resolves? : Event Task Outcome → Option Lease
  | .proceeded _ thread => thread.task.lease?
  | _ => none

def Event.clock? : Event Task Outcome → Option Instant
  | .clocked time => some time
  | _ => none

variable {store : StoreRef} {y last : Floor} {history : History} {event : Event Task Outcome}
  {l : Lease}

theorem Task.resolves_of_allowed {task : Task} (hlease : task.lease? = some l) {log : Log}
    {request : Request} (hallowed : task.allowed store log request) :
    ∃ write, l.Resolves write log request := by
  cases task with
  | acknowledge other =>
      cases hlease
      exact ⟨_, hallowed⟩
  | abandon other =>
      cases hlease
      exact ⟨_, hallowed⟩
  | drop other =>
      cases hlease
      exact ⟨_, hallowed⟩
  | _ => cases hlease

theorem Thread.change?_of_resolves {thread : Thread Task Outcome}
    (hlease : thread.task.lease? = some l) (hlanded : thread.log.landed) :
    thread.change? = some (.requeued l) ∨ thread.change? = some (.removed l) := by
  obtain ⟨task, log, rest⟩ := thread
  cases task with
  | acknowledge other =>
      cases hlease
      exact .inr (if_pos hlanded)
  | abandon other =>
      cases hlease
      exact .inl (if_pos hlanded)
  | drop other =>
      cases hlease
      exact .inl (if_pos hlanded)
  | _ => cases hlease

theorem change?_of_resolution (hsound : Floor.Sound store y)
    (hstep : Yard.Step Task.program (Task.At store) y event last)
    (hresolves : event.resolves? = some l)
    (hchanged : last.world.memory store ≠ y.world.memory store) :
    event.change? = some (.requeued l) ∨ event.change? = some (.removed l) := by
  cases hstep with
  | began n task hfree hadmits => cases hresolves
  | clocked time => cases hresolves
  | proceeded n task log request next reply w hthread hreacts =>
      obtain ⟨_, hallowed, _⟩ := hsound.orderly n _ hthread
      obtain ⟨write, hasked⟩ := Task.resolves_of_allowed hresolves hallowed
      cases haccepted : Exchange.accepted? ⟨request, reply⟩ with
      | some batch =>
          exact Thread.change?_of_resolves hresolves (by simp [Log.landed, haccepted])
      | none =>
          rcases World.memory_of_unaccepted hsound.calm hreacts haccepted store with
            hsame | ⟨now, limit, rfl, _⟩ | rfl
          · exact absurd hsame hchanged
          · exact absurd hasked id
          · exact absurd hasked id

theorem Recorded.stamp_of_resolution (hrecorded : Recorded store history y)
    (hstep : Yard.Step Task.program (Task.At store) y event last)
    (hresolves : event.resolves? = some l) (hentry : IsEntry l.entryId)
    (hchanged : last.world.memory store ≠ y.world.memory store) :
    stampAfter l.entryId history = l.claimedAt := by
  have hholds : ∃ d entry, Holds (y.world.memory store) l.entryId d entry ∧
      entry.fetchedAt = l.claimedAt := by
    have heffect := Floor.effect_of_step hrecorded.sound hstep
    rcases change?_of_resolution hrecorded.sound hstep hresolves hchanged with hchange | hchange
    · rw [hchange] at heffect
      obtain ⟨d, entry, hholds, hstamp, _⟩ := heffect.1 hentry
      exact ⟨d, entry, hholds, hstamp⟩
    · rw [hchange] at heffect
      obtain ⟨d, entry, hholds, hstamp, _⟩ := heffect.1 hentry
      exact ⟨d, entry, hholds, hstamp⟩
  obtain ⟨d, entry, hholds, hstamp⟩ := hholds
  rw [← hrecorded.fetchedAt_of_holds hentry hholds, hstamp]

theorem stamp?_of_stampAfter {id : DocId} {between earlier : History} {stamp : Instant}
    (hunshared : ∀ event ∈ between, ∀ other, event.lease? = some other → other.entryId = id →
      other.claimedAt ≠ some stamp)
    (hstamp : stampAfter id (between ++ earlier) = some stamp) :
    ∀ event ∈ between, stamp? id event.change? = none := by
  induction between with
  | nil => exact fun _ h => nomatch h
  | cons event rest ih =>
      rw [List.cons_append, stampAfter_cons] at hstamp
      cases hchanged : stamp? id event.change? with
      | none =>
          rw [hchanged, Option.getD_none] at hstamp
          intro other hmem
          rcases List.mem_cons.mp hmem with rfl | hmore
          · exact hchanged
          · exact ih (fun event hmem => hunshared event (List.mem_cons_of_mem _ hmem)) hstamp other
              hmore
      | some changed =>
          rw [hchanged, Option.getD_some] at hstamp
          subst hstamp
          rcases Event.stamp?_eq_some hchanged with ⟨other, hother, hid, hclaimed⟩ | ⟨_, hnone⟩
          · exact absurd hclaimed (hunshared event List.mem_cons_self other hother hid)
          · cases hnone

/-- A turn in the resolution of a lease, some turns after its claim. -/
structure Resolution (store : StoreRef) (before : History) (first : Event Task Outcome)
    (between : History) (event : Event Task Outcome) (lease : Lease) (y last : Floor) : Prop where
  run : ∃ clock, Shift store (Yard.start clock) (between ++ first :: before) y
  claimed : first.lease? = some lease
  step : Yard.Step Task.program (Task.At store) y event last
  resolves : ∃ resolved, event.resolves? = some { lease with resolved }

/-- A resolution that changes the store is one of the latest lease, and the entry was not put back,
exactly when no claim since then left the same stamp. -/
theorem owned_iff_unshared {before between : History} {first : Event Task Outcome} {lease : Lease}
    (hresolution : Resolution store before first between event lease y last)
    (hchanged : last.world.memory store ≠ y.world.memory store) :
    (∀ event ∈ between, ¬ event.Claims lease.entryId ∧ ¬ event.Requeues lease.entryId) ↔
      ∀ event ∈ between, ∀ other, event.lease? = some other → other.entryId = lease.entryId →
        other.claimedAt ≠ lease.claimedAt := by
  obtain ⟨⟨clock, hrun⟩, hclaimed, hstep, resolved, hresolves⟩ := hresolution
  obtain ⟨middle, hbefore, _⟩ := hrun.split
  cases hbefore with
  | step hbefore hclaim =>
      obtain ⟨hentry, stamp, hnow, _⟩ := (recorded_of_run hbefore).stamp_of_lease hclaim hclaimed
      constructor
      · intro hlatest event hmem other hother hid _
        exact (hlatest event hmem).1 ⟨other, hother, hid⟩
      · intro hunshared event hmem
        have hstamp := (recorded_of_run hrun).stamp_of_resolution hstep hresolves hentry hchanged
        rw [hnow] at hunshared
        rw [hnow] at hstamp
        exact Event.stamp?_eq_none (stamp?_of_stampAfter hunshared hstamp event hmem)

theorem resolution_of_played {moves : List (Move Task)} {k n : Nat} {lease : Lease}
    (hadmits : ∀ n task, .begin n task ∈ moves → task.At store)
    (hclaim : (played moves).1[k]?.bind Event.lease? = some lease)
    (hresolves : ((played moves).2.proceed? n).bind (·.1.resolves?) = some lease) :
    ∃ before first event last, (played moves).2.proceed? n = some (event, last) ∧
      (played moves).1 = (played moves).1.take k ++ first :: before ∧
      Resolution store before first ((played moves).1.take k) event lease (played moves).2
        last := by
  obtain ⟨first, hplace, hfirst⟩ := Option.bind_eq_some_iff.mp hclaim
  obtain ⟨⟨event, last⟩, hnext, hevent⟩ := Option.bind_eq_some_iff.mp hresolves
  obtain ⟨hlength, _⟩ := List.getElem?_eq_some_iff.mp hplace
  obtain ⟨other, before, hparts, hother⟩ := exists_parts hlength
  rw [hplace] at hother
  cases hother
  refine ⟨before, first, event, last, hnext, hparts, ⟨.origin, ?_⟩, hfirst,
    Yard.step_of_proceed hnext, lease.resolved, hevent⟩
  rw [← hparts]
  exact run_played hadmits

theorem changed_of_gone {n : Nat} {id : DocId} (hnext : y.proceed? n = some (event, last))
    (hgone : (y.proceed? n).any fun next => ((next.2.world.memory store).find? id).isNone)
    (hthere : ((y.world.memory store).find? id).isSome) :
    last.world.memory store ≠ y.world.memory store := by
  intro hsame
  rw [hnext, Option.any_some, hsame] at hgone
  rw [Option.isNone_iff_eq_none.mp hgone] at hthere
  cases hthere

theorem owned_acknowledged :
    let lease := Sample.leaseAt .origin
    let day := Sample.produce 0 ++ Sample.consume 1 8 ++ Move.whole 2 (.acknowledge lease) 1
    (((played day).2.proceed? 2).any fun next =>
        ((next.2.world.memory Sample.queue.store).find? Sample.entryId).isNone) ∧
      ∀ event ∈ (played day).1.take 2,
        ¬ event.Claims Sample.entryId ∧ ¬ event.Requeues Sample.entryId := by
  intro lease day
  have hadmits : ∀ n task, .begin n task ∈ day → task.At Sample.queue.store := by
    intro n task hmem
    simp only [day, Sample.produce, Sample.consume, List.mem_append, Move.begin_mem_whole] at hmem
    rcases hmem with (⟨_, rfl⟩ | ⟨_, rfl⟩) | ⟨_, rfl⟩ <;> rfl
  have hgone : ((played day).2.proceed? 2).any fun next =>
      ((next.2.world.memory Sample.queue.store).find? Sample.entryId).isNone := by decide +kernel
  have hthere : (((played day).2.world.memory Sample.queue.store).find? Sample.entryId).isSome := by
    decide +kernel
  have hquiet : ∀ event ∈ (played day).1.take 2, event.lease? = none := by decide +kernel
  refine ⟨hgone, ?_⟩
  have hclaim : (played day).1[2]?.bind Event.lease? = some lease := by decide +kernel
  have hresolves : ((played day).2.proceed? 2).bind (·.1.resolves?) = some lease := by
    decide +kernel
  obtain ⟨before, first, event, last, hnext, _, hresolution⟩ :=
    resolution_of_played hadmits hclaim hresolves
  have hchanged := changed_of_gone hnext hgone hthere
  refine (owned_iff_unshared hresolution hchanged).mpr fun event hmem other hother => ?_
  rw [hquiet event hmem] at hother
  cases hother

/-- An entry that was put back and claimed again at the same time is removed with the lease of the
earlier claim, even if the clock is never set. -/
theorem removed_by_superseded :
    ¬ ∀ (store : StoreRef) (before between : History) (first event : Event Task Outcome)
        (lease : Lease) (y last : Floor),
      Resolution store before first between event lease y last →
      (∀ other ∈ event :: (between ++ first :: before), other.clock? = none) →
      last.world.memory store ≠ y.world.memory store →
      ∀ event ∈ between, ¬ event.Claims lease.entryId ∧ ¬ event.Requeues lease.entryId := by
  intro hall
  let lease := Sample.leaseAt .origin
  let day := Sample.produce 0 ++ Sample.consume 1 8 ++ Move.whole 2 (.abandon lease) 2 ++
    Sample.consume 3 8 ++ Move.whole 4 (.acknowledge lease) 1
  have hadmits : ∀ n task, .begin n task ∈ day → task.At Sample.queue.store := by
    intro n task hmem
    simp only [day, Sample.produce, Sample.consume, List.mem_append, Move.begin_mem_whole] at hmem
    rcases hmem with (((⟨_, rfl⟩ | ⟨_, rfl⟩) | ⟨_, rfl⟩) | ⟨_, rfl⟩) | ⟨_, rfl⟩ <;> rfl
  have hgone : ((played day).2.proceed? 4).any fun next =>
      ((next.2.world.memory Sample.queue.store).find? Sample.entryId).isNone := by decide +kernel
  have hthere : (((played day).2.world.memory Sample.queue.store).find? Sample.entryId).isSome := by
    decide +kernel
  have hsuperseded : ((played day).1.take 14)[2]?.bind Event.lease? = some lease := by
    decide +kernel
  have hunset : ∀ event ∈ (played day).1, event.clock? = none := by decide +kernel
  have hclaim : (played day).1[14]?.bind Event.lease? = some lease := by decide +kernel
  have hresolves : ((played day).2.proceed? 4).bind (·.1.resolves?) = some lease := by
    decide +kernel
  obtain ⟨before, first, event, last, hnext, hparts, hresolution⟩ :=
    resolution_of_played hadmits hclaim hresolves
  obtain ⟨claim, hplace, hlease⟩ := Option.bind_eq_some_iff.mp hsuperseded
  have hmem : claim ∈ (played day).1.take 14 := List.mem_of_getElem? hplace
  have hset : ∀ other ∈ event :: ((played day).1.take 14 ++ first :: before),
      other.clock? = none := by
    rw [← hparts]
    refine List.forall_mem_cons.mpr ⟨?_, hunset⟩
    obtain ⟨_, hevent⟩ := hresolution.resolves
    cases event with
    | proceeded n thread => rfl
    | _ => cases hevent
  have hchanged := changed_of_gone hnext hgone hthere
  exact (hall _ _ _ _ _ _ _ _ hresolution hset hchanged claim hmem).1 ⟨lease, hlease, rfl⟩

end Jobyard.Simulation
