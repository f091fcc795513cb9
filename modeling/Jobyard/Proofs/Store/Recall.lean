import Jobyard.Proofs.Simulation.Yard
import Jobyard.Proofs.Store.Arrival
import Jobyard.Proofs.Store.Purge

/-!
What a store recalls of documents that it showed earlier. The number and the version tell whether a
document is still the one that was shown, whatever was asked of the store in between.
-/

namespace Jobyard

namespace Memory

variable {m next : Memory} {d : Stored} {w : Write} {batch : Batch} {q : Query}
  {found : List Stored}

/-- A document that was seen earlier is gone, or it was made anew or written since, or it is the
one that is there. -/
structure Recalls (m : Memory) (d : Stored) : Prop where
  sequence_le : d.sequence ≤ m.lastSequence
  find?_cases : ∀ current, m.find? d.id = some current →
    d.sequence < current.sequence ∨ d.etag < current.etag ∨ current = d

theorem Recalls.write (h : m.Recalls d) (hwrite : m.write w = .ok next) : next.Recalls d := by
  obtain ⟨hwrote, hothers⟩ := wrote_of_write hwrite
  have hle := hwrote.lastSequence_le
  have hbound := h.sequence_le
  refine ⟨Nat.le_trans hbound hle, fun current hcurrent => ?_⟩
  by_cases hid : d.id = w.id
  · rw [hid] at hcurrent
    have hcases := h.find?_cases
    rw [hid] at hcases
    cases hwrote with
    | removed _ hgone _ =>
        rw [hgone] at hcurrent
        cases hcurrent
    | replaced old made _ hold hmade _ hsequence hetag _ =>
        cases hmade.symm.trans hcurrent
        rcases hcases old hold with hnew | hwritten | rfl
        · exact .inl (by omega)
        · exact .inr (.inl (by omega))
        · exact .inr (.inl (by omega))
    | created made _ hmade _ hsequence _ _ =>
        cases hmade.symm.trans hcurrent
        exact .inl (by omega)
  · rw [hothers d.id hid] at hcurrent
    exact h.find?_cases current hcurrent

theorem Recalls.commit (h : m.Recalls d) (hcommit : m.commit batch = .ok next) :
    next.Recalls d := by
  induction batch generalizing m with
  | nil =>
      rw [commit_nil] at hcommit
      cases hcommit
      exact h
  | cons w rest ih =>
      rw [commit_cons] at hcommit
      obtain ⟨middle, hwrite, hrest⟩ := bind_eq_ok.mp hcommit
      exact ih (h.write hwrite) hrest

theorem Recalls.of_kept (h : m.Recalls d) (hlast : next.lastSequence = m.lastSequence)
    (hkept : next.find? d.id = none ∨ next.find? d.id = m.find? d.id) : next.Recalls d := by
  refine ⟨hlast ▸ h.sequence_le, fun current hcurrent => ?_⟩
  rcases hkept with hnone | hsame
  · rw [hnone] at hcurrent
    cases hcurrent
  · exact h.find?_cases current (hsame ▸ hcurrent)

theorem Recalls.after (h : m.Recalls d) (call : StoreCall) : (m.after call).Recalls d := by
  cases call with
  | destroy => exact h.of_kept rfl (.inl rfl)
  | commit batch =>
      cases hcommit : m.commit batch with
      | error e => rwa [after_commit_of_error hcommit]
      | ok next =>
          rw [after_commit_of_ok hcommit]
          exact h.commit hcommit
  | purge now limit => exact h.of_kept rfl (m.find?_purge now limit d.id)
  | _ => exact h

theorem nodup_ids_of_query (hkeyed : m.Keyed) (hquery : m.query q = .ok found) :
    (found.map (·.id)).Nodup := by
  have hstored : ∀ d ∈ found, m.find? d.id = some d :=
    fun d hd => (mem_of_query hkeyed hquery hd).1
  obtain ⟨_, _, hfound⟩ := bind_eq_ok.mp hquery
  have hsorted : ((m.accepted q).mergeSort q.comesFirst).Nodup :=
    (List.mergeSort_perm _ _).nodup_iff.mpr ((nodup_values hkeyed).filter _)
  have hnodup : found.Nodup := by
    cases hfound
    unfold Query.finish
    split
    · exact hsorted.sublist (List.drop_sublist _ _)
    · exact hsorted.sublist ((List.take_sublist _ _).trans (List.drop_sublist _ _))
  refine List.pairwise_map.mpr (hnodup.imp_of_mem fun ha hb hne hid => hne ?_)
  exact Option.some.inj ((hstored _ ha).symm.trans (hid ▸ hstored _ hb))

end Memory

namespace Simulation

namespace Yard

variable {τ ρ : Type} {program : τ → Program ρ} {admits : τ → Prop} {y last : Yard τ ρ}
  {history : List (Event τ ρ)} {event : Event τ ρ} {store : StoreRef}

/-- What programs were told by queries was distinct, and the store recalls it. -/
structure Attests (store : StoreRef) (y : Yard τ ρ) : Prop where
  calm : y.world.Calm
  numbered : (y.world.memory store).Numbered
  found : ∀ n q found, ⟨.store store (.query q), .ok found⟩ ∈ y.logAt n →
    (found.map (·.id)).Nodup ∧ ∀ d ∈ found, q.accepts d = true ∧ (y.world.memory store).Recalls d

theorem attests_start (clock : Instant) : (start clock : Yard τ ρ).Attests store where
  calm := World.calm_start clock
  numbered := Memory.numbered_empty
  found _ _ _ h := nomatch h

theorem Attests.step (h : y.Attests store) (hstep : Step program admits y event last) :
    last.Attests store := by
  have hcalm := hstep.calm h.calm
  rcases hstep.log_cases with ⟨hsame, hquiet⟩ | ⟨k, request, reply, hreacts, hself, hothers⟩
  · refine ⟨hcalm, hquiet.memory store ▸ h.numbered, fun n q found hmem => ?_⟩
    rw [hquiet.memory store]
    exact h.found n q found (hsame n ▸ hmem)
  · have hmemory := World.memory_of_reacts h.calm hreacts store
    have hrecalls : ∀ d, (y.world.memory store).Recalls d →
        (last.world.memory store).Recalls d := by
      intro d hd
      rcases hmemory with hsame | ⟨call, hafter⟩
      · rwa [hsame]
      · rw [hafter]
        exact hd.after call
    refine ⟨hcalm, ?_, fun n q found hmem => ?_⟩
    · rcases hmemory with hsame | ⟨call, hafter⟩
      · rw [hsame]
        exact h.numbered
      · rw [hafter]
        exact h.numbered.after call
    · rcases hstep.logAt_cases hmem with hold | ⟨request, reply, heq, hreacts⟩
      · obtain ⟨hnodup, hall⟩ := h.found n q found hold
        exact ⟨hnodup, fun d hd => ⟨(hall d hd).1, hrecalls d (hall d hd).2⟩⟩
      · cases heq
        rcases World.reacts_store h.calm hreacts with ⟨hreply, _⟩ | ⟨_, herror, _⟩
        · have hkeyed := h.numbered.keyed
          refine ⟨Memory.nodup_ids_of_query hkeyed hreply.symm, fun d hd => ?_⟩
          obtain ⟨hstored, haccepts⟩ := Memory.mem_of_query hkeyed hreply.symm hd
          refine ⟨haccepts, hrecalls d ⟨h.numbered.sequence_le d.id d hstored, ?_⟩⟩
          exact fun current hcurrent =>
            .inr (.inr (Option.some.inj (hcurrent.symm.trans hstored)))
        · cases herror

theorem attests_of_run {clock : Instant} (hrun : Run program admits (start clock) history y) :
    y.Attests store := by
  induction hrun with
  | refl => exact attests_start clock
  | step _ hstep ih => exact ih.step hstep

end Yard

end Simulation

end Jobyard
