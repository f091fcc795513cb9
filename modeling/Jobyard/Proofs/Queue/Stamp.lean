import Jobyard.Proofs.Queue.History

/-!
Stamps over a run. The stamp of an entry that is there is the one that the latest claim left, or
it is empty because a requeueing came later.
-/

namespace Jobyard.Simulation

open Change History

namespace Event

def lease? (event : Event Task Outcome) : Option Lease :=
  match event.change? with
  | some (.claimed lease _) => some lease
  | _ => none

def Claims (event : Event Task Outcome) (id : DocId) : Prop :=
  ∃ lease, event.lease? = some lease ∧ lease.entryId = id

/-- An abandoned or dropped lease put the entry back. -/
def Requeues (event : Event Task Outcome) (id : DocId) : Prop :=
  ∃ l, event.change? = some (.requeued l) ∧ l.entryId = id

theorem lease?_eq_some {event : Event Task Outcome} {lease : Lease} :
    event.lease? = some lease ↔ ∃ timeout, event.change? = some (.claimed lease timeout) := by
  unfold lease?
  cases event.change? with
  | none => simp
  | some change => cases change <;> simp

theorem stamp?_eq_none {event : Event Task Outcome} {id : DocId}
    (h : stamp? id event.change? = none) : ¬ event.Claims id ∧ ¬ event.Requeues id := by
  constructor
  · rintro ⟨lease, hlease, rfl⟩
    obtain ⟨timeout, hchange⟩ := lease?_eq_some.mp hlease
    rw [hchange, stamp?, if_pos rfl] at h
    cases h
  · rintro ⟨l, hchange, rfl⟩
    rw [hchange, stamp?, if_pos rfl] at h
    cases h

theorem stamp?_eq_some {event : Event Task Outcome} {id : DocId} {stamp : Option Instant}
    (h : stamp? id event.change? = some stamp) :
    (∃ lease, event.lease? = some lease ∧ lease.entryId = id ∧ lease.claimedAt = stamp) ∨
      (event.Requeues id ∧ stamp = none) := by
  unfold stamp? at h
  split at h
  · rename_i lease timeout hchange
    split at h
    · rename_i hid
      cases h
      exact .inl ⟨lease, lease?_eq_some.mpr ⟨timeout, hchange⟩, hid, rfl⟩
    · cases h
  · rename_i l hchange
    split at h
    · rename_i hid
      cases h
      exact .inr ⟨⟨l, hchange, hid⟩, rfl⟩
    · cases h
  · cases h

end Event

variable {store : StoreRef} {y last : Floor} {history : History} {event : Event Task Outcome}

theorem Recorded.stamp_of_lease (hrecorded : Recorded store history y)
    (hstep : Yard.Step Task.program (Task.At store) y event last) {lease : Lease}
    (hlease : event.lease? = some lease) :
    IsEntry lease.entryId ∧ ∃ now, lease.claimedAt = some now ∧
      stampAfter lease.entryId (event :: history) = some now := by
  obtain ⟨timeout, hchange⟩ := Event.lease?_eq_some.mp hlease
  have heffect := Floor.effect_of_step hrecorded.sound hstep
  rw [hchange] at heffect
  obtain ⟨hentry, ⟨_, _, now, _, _, hclaimed, _⟩, _⟩ := heffect
  refine ⟨hentry, now, hclaimed, ?_⟩
  rw [stampAfter_cons, hchange, stamp?, if_pos rfl, hclaimed, Option.getD_some]

theorem Recorded.fetchedAt_of_holds (hrecorded : Recorded store history y) {id : DocId} {d : Stored}
    {entry : QueueEntry} (hentry : IsEntry id) (hholds : Holds (y.world.memory store) id d entry) :
    entry.fetchedAt = stampAfter id history := by
  obtain ⟨created, _, rfl⟩ := hrecorded.exists_created hentry hholds
  rfl

end Jobyard.Simulation
