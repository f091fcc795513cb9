import Jobyard.Proofs.Transaction.Grouping

/-!
Edits that revise one document. As long as nobody disturbs them, they lead to the same body in one
transaction and in one each.
-/

namespace Jobyard

namespace Assembled

variable {m : Memory} {done : List (Instant × Operation)} {s last : Session} {edits : List Edit}

theorem actAll {now : Instant} (h : Assembled m done s)
    (hact : Edit.actAll now m edits s = .ok last) :
    Assembled m (done ++ edits.map fun e => (now, .edit e)) last := by
  induction edits generalizing s done with
  | nil =>
      cases hact
      rwa [List.map_nil, List.append_nil]
  | cons e rest ih =>
      unfold Edit.actAll at hact
      rcases hresult : e.act now m s with ⟨result, next⟩
      rw [hresult] at hact
      cases result with
      | error failure => cases hact
      | ok _ =>
          have hnext := h.act now (congrArg Prod.fst hresult)
          rw [hresult] at hnext
          have hlast := ih hnext hact
          rwa [List.append_assoc] at hlast

theorem exists_commit (h : Assembled m done s) (hdeferred : s.deferred = [])
    (hfirst : ∀ id, FirstRemoves done id = false) : ∃ next, m.commit s.batch = .ok next := by
  rw [Session.batch_eq, hdeferred, List.append_nil]
  rcases m.commit_demanding (fun _ => Session.demand_of_mem_documentWrites)
    (Session.nodup_ids_documentWrites h.distinct) with ⟨_, hcommit⟩ | ⟨hunmet, _⟩
  · exact hcommit
  · obtain ⟨id, _, hremoves, _⟩ := h.exists_unmet_iff.mp hunmet
    rw [hfirst id] at hremoves
    cases hremoves

end Assembled

namespace Edit

variable {now : Instant} {m : Memory} {edits : List Edit} {id : DocId} {s : Session}
  {c final : Option Content}

def IsRevision (e : Edit) : Prop := e.isAddition = false ∧ e.isRemoval = false

theorem exists_actAll (hid : ∀ e ∈ edits, e.id = id) (hrevisions : ∀ e ∈ edits, e.IsRevision)
    (hbody : c.map (·.body) = (s.seen m id).body?) (h : applyAll now edits c = .ok final) :
    ∃ last, actAll now m edits s = .ok last ∧ last.deferred = s.deferred := by
  induction edits generalizing s c with
  | nil => exact ⟨s, rfl, rfl⟩
  | cons e rest ih =>
      obtain ⟨hadds, hremoval⟩ := hrevisions e List.mem_cons_self
      obtain rfl := hid e List.mem_cons_self
      rw [applyAll_cons] at h
      obtain ⟨middle, happly, hrest⟩ := bind_eq_ok.mp h
      obtain ⟨body, haltered, hmiddle⟩ := bind_eq_ok.mp happly
      cases hmiddle
      obtain ⟨revised, hrevise, hagrees⟩ := agrees_revise hadds now (s.seen m e.id)
      rw [← hbody, haltered] at hagrees
      obtain ⟨t, rfl, hbecomes⟩ := hagrees.of_altered
      have hact : e.act now m s = (.ok (), s.track e.id t) := by
        unfold act sight
        rw [hremoval, if_neg Bool.false_ne_true, hrevise]
        simp [Except.map, Session.amend_nil]
      have hseen : (s.track e.id t).seen m e.id = t := by
        simp [Session.seen, Session.find?_track_self]
      obtain ⟨last, hlast, hdeferred⟩ := ih (s := s.track e.id t)
        (fun other hother => hid other (List.mem_cons_of_mem e hother))
        (fun other hother => hrevisions other (List.mem_cons_of_mem e hother))
        (by rw [hseen, hbecomes.body, Option.map_map]; exact Option.map_id') hrest
      refine ⟨last, ?_, hdeferred⟩
      unfold actAll
      rw [hact]
      exact hlast

theorem firstRemoves_of_revisions (hrevisions : ∀ e ∈ edits, e.IsRevision) (id : DocId) :
    FirstRemoves (edits.map fun e => (now, .edit e)) id = false := by
  unfold FirstRemoves
  cases hfound : (edits.map fun e => (now, Operation.edit e)).find?
      fun entry => entry.2.edits id with
  | none => rfl
  | some entry =>
      obtain ⟨e, he, rfl⟩ := List.mem_map.mp (List.mem_of_find?_eq_some hfound)
      exact (hrevisions e he).2

end Edit

namespace Simulation.World

open Transaction

variable {w : World} {store : StoreRef} {edits : List Edit}

theorem run_revisions (routing : Routing) (hcalm : w.Calm) {id : DocId} {c : Option Content}
    (hid : ∀ e ∈ edits, e.id = id) (hrevisions : ∀ e ∈ edits, e.IsRevision)
    (h : Edit.applyAll w.clock edits ((w.memory store).content? id) = .ok c) :
    ∀ a ∈ [grouped store routing edits, separate store routing edits],
      ∃ after, w.run a.run = (.ok (), after) ∧
        ((after.memory store).find? id).map (·.body) = c.map (·.body) := by
  have hconcerning : Edit.concerning id edits = edits :=
    List.filter_eq_self.mpr fun e he => decide_eq_true (hid e he)
  have hgrouped : ∃ after, w.run (grouped store routing edits).run = (.ok (), after) ∧
      ((after.memory store).find? id).map (·.body) = c.map (·.body) := by
    obtain ⟨s, hact, hdeferred⟩ := Edit.exists_actAll (s := Session.empty store true) hid hrevisions
      (Tracked.body?_ofLoaded _) h
    obtain ⟨next, hcommit⟩ := ((assembled_empty _ store).actAll hact).exists_commit hdeferred
      fun other => Edit.firstRemoves_of_revisions hrevisions other
    obtain ⟨after, hrun, hfollows⟩ := run_grouped routing hcalm hact hcommit
    obtain ⟨reached, hreaches⟩ := Edit.reaches_of_commit hact hcommit id
    rw [hconcerning] at hreaches
    cases hreaches.reached.symm.trans h
    refine ⟨after, hrun, ?_⟩
    rw [hfollows.memory]
    exact hreaches.body.symm
  have hseparate : ∃ after, w.run (separate store routing edits).run = (.ok (), after) ∧
      ((after.memory store).find? id).map (·.body) = c.map (·.body) := by
    have hleads : Edit.Leads w.clock (w.memory store) edits := by
      intro other
      by_cases hother : other = id
      · subst hother
        exact ⟨c, hconcerning.symm ▸ h⟩
      · have hnone : Edit.concerning other edits = [] :=
          List.filter_eq_nil_iff.mpr fun e he hsame =>
            hother ((of_decide_eq_true hsame).symm.trans (hid e he))
        rw [hnone]
        exact ⟨_, rfl⟩
    obtain ⟨after, next, hrun, hfollows, hcontents⟩ := run_separate routing hcalm hleads
    have hcontent := hcontents id
    rw [hconcerning, h] at hcontent
    cases hcontent
    refine ⟨after, hrun, ?_⟩
    rw [hfollows.memory, Memory.content?, Option.map_map]
    rfl
  simpa using ⟨hgrouped, hseparate⟩

end Simulation.World

end Jobyard
