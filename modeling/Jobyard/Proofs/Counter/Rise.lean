import Jobyard.Proofs.Session.Legible
import Jobyard.Proofs.Counter.Tally

/-!
One counter that is raised by a transaction of its own. Whatever happened to the counter after the
transaction looked at it, a commit that goes well raises it by one, and no other counter.
-/

namespace Jobyard

namespace Memory

def tally (m : Memory) (key : String) : Int :=
  ((m.find? (Document.idFor Counter key)).bind fun d =>
    (Document.decode? d.body : Option Counter)).elim 0 (·.value)

variable {m next : Memory} {key : String}

theorem decode?_addTo {body sum : Json} {c : Counter} {delta : Int}
    (hbody : Document.decode? body = some c) (hsum : addTo body Counter.field delta = .ok sum)
    (hdelta : 0 ≤ delta) (hroom : c.value + delta ≤ Json.greatest64) :
    Document.decode? sum = some (Counter.mk (c.value + delta)) := by
  obtain ⟨members, n, rfl, rfl, hn⟩ := addTo_eq_ok hsum
  rw [Counter.decode?_obj] at hbody ⊢
  obtain ⟨value, hvalue, rfl⟩ := Option.map_eq_some_iff.mp hbody
  have hsame : n = value := by
    rcases hn with ⟨_, hnone | hnull⟩ | hread
    · rw [hnone] at hvalue
      cases hvalue
    · rw [hnull] at hvalue
      cases hvalue
    · exact Option.some.inj (hread.symm.trans hvalue)
  obtain ⟨member, _, hmember⟩ := Option.bind_eq_some_iff.mp hvalue
  obtain ⟨_, hleast, _⟩ := Json.int64?_eq_some.mp hmember
  rw [hsame, Entries.find?_insert_self, Option.bind_some,
    Json.int64?_eq_some.mpr
      ⟨rfl, Int.le_trans hleast (Int.le_add_of_nonneg_right hdelta), hroom⟩]
  rfl

def Raises (key : String) (batch : Batch) : Prop :=
  ∃ expiresAt,
    batch = [.put (Document.idFor Counter key) (Document.encode (Counter.mk 1)) expiresAt .absent] ∨
      batch = [.increment (Document.idFor Counter key) Counter.field 1 expiresAt]

theorem Raises.id {batch : Batch} (h : Raises key batch) :
    ∀ w ∈ batch, w.id = Document.idFor Counter key := by
  obtain ⟨expiresAt, rfl | rfl⟩ := h
  · intro w hw
    cases List.mem_singleton.mp hw
    rfl
  · intro w hw
    cases List.mem_singleton.mp hw
    rfl

theorem Raises.decode? {batch : Batch} (h : Raises key batch) (hcommit : m.commit batch = .ok next)
    (hlegible : m.Legible Counter) (hroom : m.tally key < Json.greatest64) :
    ∃ d, next.find? (Document.idFor Counter key) = some d ∧
      Document.decode? d.body = some (Counter.mk (m.tally key + 1)) := by
  obtain ⟨expiresAt, rfl | rfl⟩ := h
  · rw [commit_singleton] at hcommit
    obtain ⟨hnone, ⟨d, hd, hbody, _⟩, _⟩ := write_put_absent hcommit
    refine ⟨d, hd, ?_⟩
    rw [tally, hnone, hbody]
    rfl
  · rw [commit_singleton] at hcommit
    obtain ⟨document, houtcome, hfound, _⟩ := write_eq_ok hcommit
    obtain ⟨d, rfl, hadded, _⟩ := outcome_increment houtcome
    refine ⟨d, hfound, ?_⟩
    change addTo (((m.find? (Document.idFor Counter key)).map (·.body)).getD (.obj []))
      Counter.field 1 = .ok d.body at hadded
    unfold tally at hroom ⊢
    cases hcurrent : m.find? (Document.idFor Counter key) with
    | none =>
        rw [hcurrent] at hadded
        rw [← Except.ok.inj hadded]
        rfl
    | some current =>
        obtain ⟨c, hc⟩ := Option.isSome_iff_exists.mp (hlegible _ current hcurrent rfl)
        rw [hcurrent] at hadded hroom
        simp only [Option.bind_some, hc, Option.elim_some] at hroom ⊢
        exact decode?_addTo hc hadded (by decide) hroom

theorem Raises.tally {batch : Batch} (h : Raises key batch) (hcommit : m.commit batch = .ok next)
    (hlegible : m.Legible Counter) (hroom : m.tally key < Json.greatest64) (other : String) :
    next.tally other = if other = key then m.tally other + 1 else m.tally other := by
  split
  · rename_i hother
    subst hother
    obtain ⟨d, hd, hdecode⟩ := h.decode? hcommit hlegible hroom
    rw [Memory.tally, hd, Option.bind_some, hdecode]
    rfl
  · rename_i hother
    have hne : ∀ w ∈ batch, w.id ≠ Document.idFor Counter other := by
      intro w hw heq
      rw [h.id w hw] at heq
      exact hother (congrArg DocId.key heq).symm
    rw [Memory.tally, find?_commit_of_forall_ne hcommit hne]
    rfl

theorem Raises.legible {batch : Batch} (h : Raises key batch) (hcommit : m.commit batch = .ok next)
    (hlegible : m.Legible Counter) (hroom : m.tally key < Json.greatest64) :
    next.Legible Counter := by
  intro id d hd
  by_cases hid : id = Document.idFor Counter key
  · subst hid
    obtain ⟨raised, hraised, hdecode⟩ := h.decode? hcommit hlegible hroom
    cases hd.symm.trans hraised
    exact fun _ => Option.isSome_of_eq_some hdecode
  · have hne : ∀ w ∈ batch, w.id ≠ id := fun w hw heq => hid (heq.symm.trans (h.id w hw))
    rw [find?_commit_of_forall_ne hcommit hne] at hd
    exact hlegible id d hd

end Memory

namespace Simulation.World

variable {w : World} {store : StoreRef} {key : String}

theorem raises_addToCounter (hcalm : w.Calm) {length : Option Duration} {routing : Routing}
    {t : Transaction}
    (h : (w.run ((Step.addToCounter key 1 length).start (.start store routing))).1 = (.ok (), t)) :
    t.session.store = store ∧ Memory.Raises key t.session.batch := by
  rw [run_addToCounter hcalm] at h
  obtain ⟨hresult, rfl⟩ := Prod.mk.inj h
  refine ⟨Edit.store_act _ _ _ _, length.map w.clock.expiresIn, ?_⟩
  change ((Edit.addToCounter key 1 length).act w.clock (w.memory store)
    (Session.empty store true)).1 = _ at hresult
  change ((Edit.addToCounter key 1 length).act w.clock (w.memory store)
    (Session.empty store true)).2.batch = _ ∨ ((Edit.addToCounter key 1 length).act w.clock
      (w.memory store) (Session.empty store true)).2.batch = _
  simp only [Edit.act, Edit.revise, Edit.sight, Edit.isRemoval, Edit.id, Session.seen] at hresult ⊢
  cases hfound : (w.memory store).find? (Document.idFor Counter key) with
  | none =>
      refine .inl ?_
      cases length <;> rfl
  | some d =>
      rw [hfound] at hresult
      simp only [Session.find?, Session.empty, List.lookup_nil, Option.getD_none, Tracked.ofLoaded,
        Tracked.add, Tracked.decode, Tracked.ofStored, Bool.false_eq_true, if_false] at hresult ⊢
      cases hdecode : (Document.decode? d.body : Option Counter) with
      | none =>
          rw [hdecode] at hresult
          cases hresult
      | some c =>
          refine .inr ?_
          rfl

end Simulation.World

end Jobyard
