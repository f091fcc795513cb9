import Jobyard.Proofs.Session.Sight

/-!
Reads through a session that holds documents only as its store has them, such as a new one. They
give what the store has at the moment of the read.
-/

namespace Jobyard

section Reads

variable {α : Type} [Document α] {s : Session} {m : Memory}

namespace Session

def Mirrors (s : Session) (m : Memory) : Prop :=
  ∀ id t, s.find? id = some t → t = .ofLoaded (m.find? id)

theorem mirrors_of_empty (h : s.tracked = []) : s.Mirrors m := by
  intro id t hfound
  rw [find?, h] at hfound
  cases hfound

theorem Mirrors.seen (h : s.Mirrors m) (id : DocId) : s.seen m id = .ofLoaded (m.find? id) := by
  unfold Session.seen
  cases hfound : s.find? id with
  | none => rfl
  | some t => exact h id t hfound

theorem Mirrors.track (h : s.Mirrors m) (id : DocId) :
    (s.track id (.ofLoaded (m.find? id))).Mirrors m := by
  intro other t hfound
  rw [find?_track] at hfound
  split at hfound
  · rename_i hother
    subst hother
    cases hfound
    rfl
  · exact h other t hfound

theorem Mirrors.observe (h : s.Mirrors m) {d : Stored} (hd : m.find? d.id = some d) :
    (s.observe d).Mirrors m ∧ (s.observe d).find? d.id = some (.ofStored d) := by
  have htrack : (s.track d.id (.ofStored d)).Mirrors m := by
    have hsame := h.track d.id
    rw [hd] at hsame
    exact hsame
  unfold Session.observe isTracked
  cases hfound : s.find? d.id with
  | some t =>
      have ht := h d.id t hfound
      rw [hd] at ht
      exact ⟨h, hfound.trans (congrArg some ht)⟩
  | none => exact ⟨htrack, find?_track_self s d.id _⟩

theorem find?_absorb_load (s : Session) (m : Memory) (ids : List DocId) (id : DocId) :
    (s.absorb (ids.zip (m.load ids))).find? id =
      if id ∈ ids then some (.ofLoaded (m.find? id)) else s.find? id := by
  induction ids generalizing s with
  | nil => simp [absorb]
  | cons first rest ih =>
      change ((s.track first (.ofLoaded (m.find? first))).absorb
        (rest.zip (m.load rest))).find? id = _
      rw [ih, find?_track]
      by_cases hrest : id ∈ rest
      · simp [hrest]
      · by_cases hfirst : id = first
        · simp [hfirst]
        · simp [hrest, hfirst]

end Session

theorem Tracked.decode_ofStored (d : Stored) :
    (ofStored d).decode α d.id = (d.decode α).map some := by
  unfold Stored.decode
  cases hdecode : (Document.decode? d.body : Option α) with
  | none => simp [decode, ofStored, hdecode, Except.map]
  | some document => simp [decode, ofStored, hdecode, Except.map]

namespace Memory

def read (α : Type) [Document α] (m : Memory) (id : DocId) : Except StoreError (Option α) :=
  match m.find? id with
  | none => .ok none
  | some d => (d.decode α).map some

def readAll (α : Type) [Document α] (m : Memory) (q : Query) :
    Except StoreError (List (DocId × α)) := do
  (← m.query q).mapM fun d => (d.decode α).map fun document => (d.id, document)

theorem decode_ofLoaded (hkeyed : m.Keyed) (α : Type) [Document α] (id : DocId) :
    (Tracked.ofLoaded (m.find? id)).decode α id = m.read α id := by
  unfold read
  cases hfound : m.find? id with
  | none => rfl
  | some d =>
      rw [← hkeyed id d hfound]
      exact Tracked.decode_ofStored d

end Memory

namespace Work

theorem start_mapM_view_mirrored (hkeyed : m.Keyed) {ids : List DocId}
    (hseen : ∀ id ∈ ids, s.find? id = some (.ofLoaded (m.find? id))) :
    start (ids.mapM (view α)) s = .done (ids.mapM (m.read α), s) := by
  induction ids with
  | nil => rfl
  | cons id rest ih =>
      rw [List.mapM_cons, List.mapM_cons, start_bind, start_view, hseen id List.mem_cons_self,
        Option.elim_some, Memory.decode_ofLoaded hkeyed]
      cases m.read α id with
      | error e => rfl
      | ok found =>
          simp only [Interaction.done_bind]
          rw [start_bind, ih fun other hmem => hseen other (List.mem_cons_of_mem id hmem)]
          simp only [Interaction.done_bind]
          cases rest.mapM (m.read α) <;> rfl

theorem start_gather_mirrored (h : s.Mirrors m) {found : List Stored}
    (hfound : ∀ d ∈ found, m.find? d.id = some d) :
    ∃ next, start (gather α found) s =
      .done (found.mapM fun d => (d.decode α).map fun document => (d.id, document), next) := by
  induction found generalizing s with
  | nil => exact ⟨s, rfl⟩
  | cons d rest ih =>
      obtain ⟨hmirrors, hseen⟩ := h.observe (hfound d List.mem_cons_self)
      obtain ⟨next, hrest⟩ := ih hmirrors fun other hmem =>
        hfound other (List.mem_cons_of_mem d hmem)
      have hview : start (view α d.id) (s.observe d) =
          .done ((d.decode α).map some, s.observe d) := by
        rw [start_view, hseen, Option.elim_some, Tracked.decode_ofStored]
      unfold gather
      rw [start_bind, start_modify]
      simp only [Interaction.done_bind]
      rw [start_bind, hview, List.mapM_cons]
      simp only [Interaction.done_bind]
      cases d.decode α with
      | error e => exact ⟨s.observe d, rfl⟩
      | ok document =>
          refine ⟨next, ?_⟩
          change start (gather α rest >>= fun others =>
            (pure ((d.id, document) :: others) : Work _)) (s.observe d) = _
          rw [start_bind, hrest]
          simp only [Interaction.done_bind]
          cases rest.mapM fun d => (d.decode α).map fun document => (d.id, document) <;> rfl

variable {found : List Stored}

theorem start_gather_readable (h : s.Mirrors m) (hfound : ∀ d ∈ found, m.find? d.id = some d)
    (hreadable : ∀ d ∈ found, (Document.decode? d.body : Option α).isSome) :
    ∃ gathered next, start (gather α found) s = .done (.ok gathered, next) ∧
      gathered.map (·.1) = found.map (·.id) := by
  obtain ⟨next, hstart⟩ := start_gather_mirrored (α := α) h hfound
  suffices hread : ∃ gathered, (found.mapM fun d =>
      (d.decode α).map fun document => (d.id, document)) = .ok gathered ∧
        gathered.map (·.1) = found.map (·.id) by
    obtain ⟨gathered, hgathered, hids⟩ := hread
    exact ⟨gathered, next, hstart.trans (by rw [hgathered]), hids⟩
  clear hstart hfound
  induction found with
  | nil => exact ⟨[], rfl, rfl⟩
  | cons d rest ih =>
      obtain ⟨document, hdecode⟩ := Option.isSome_iff_exists.mp (hreadable d List.mem_cons_self)
      obtain ⟨others, hothers, hids⟩ := ih fun other hmem =>
        hreadable other (List.mem_cons_of_mem d hmem)
      refine ⟨(d.id, document) :: others, ?_, by rw [List.map_cons, hids, List.map_cons]⟩
      rw [List.mapM_cons, hothers, Stored.decode, hdecode]
      rfl

theorem start_gather_unreadable (h : s.Mirrors m) (hfound : ∀ d ∈ found, m.find? d.id = some d)
    (hunreadable : ∃ d ∈ found, (Document.decode? d.body : Option α) = none) :
    ∃ e next, start (gather α found) s = .done (.error e, next) := by
  obtain ⟨next, hstart⟩ := start_gather_mirrored (α := α) h hfound
  suffices hread : ∃ e, (found.mapM fun d =>
      (d.decode α).map fun document => (d.id, document)) = .error e by
    obtain ⟨e, he⟩ := hread
    exact ⟨e, next, hstart.trans (by rw [he])⟩
  clear hstart hfound
  induction found with
  | nil => exact hunreadable.elim fun _ hnone => nomatch hnone.1
  | cons d rest ih =>
      rw [List.mapM_cons, Stored.decode]
      cases hdecode : (Document.decode? d.body : Option α) with
      | none => exact ⟨_, rfl⟩
      | some document =>
          have hrest : ∃ d ∈ rest, (Document.decode? d.body : Option α) = none := by
            obtain ⟨other, hmem, hnone⟩ := hunreadable
            rcases List.mem_cons.mp hmem with rfl | hmore
            · rw [hdecode] at hnone
              cases hnone
            · exact ⟨other, hmore, hnone⟩
          obtain ⟨e, he⟩ := ih hrest
          exact ⟨e, by rw [he]; rfl⟩

end Work

end Reads

namespace Simulation.World

open Work

variable {w : World} {s : Session}

theorem run_ensureLoaded_mirrored (hcalm : w.Calm) (hmirrors : s.Mirrors (w.memory s.store))
    (ids : List DocId) :
    ∃ next, w.run ((ensureLoaded ids).start s) = ((.ok (), next), w) ∧
      ∀ id ∈ ids, next.find? id = some (.ofLoaded ((w.memory s.store).find? id)) := by
  have hpresent : ∀ id ∈ ids, id ∉ missing s ids →
      s.find? id = some (.ofLoaded ((w.memory s.store).find? id)) := by
    intro id hmem hknown
    cases hfound : s.find? id with
    | none =>
        exact absurd (List.mem_filter.mpr ⟨hmem, by simp [Session.isTracked, hfound]⟩) hknown
    | some t => exact congrArg some (hmirrors id t hfound)
  rw [start_ensureLoaded]
  split
  · rename_i hempty
    refine ⟨s, rfl, fun id hmem => hpresent id hmem ?_⟩
    rw [List.isEmpty_iff.mp hempty]
    exact List.not_mem_nil
  · rw [run_store, call_load hcalm]
    refine ⟨_, rfl, fun id hmem => ?_⟩
    rw [Session.find?_absorb_load]
    split
    · rfl
    · rename_i hknown
      exact hpresent id hmem hknown

/-- Whatever is read through the session next is what a store has. -/
structure ReadsFrom (w : World) (s : Session) (m : Memory) : Prop where
  load : ∀ (α : Type) [Document α] (id : DocId),
    (w.run ((Work.load α id).start s)).1.1 = m.read α id
  loadMany : ∀ (α : Type) [Document α] (ids : List DocId),
    (w.run ((Work.loadMany α ids).start s)).1.1 = ids.mapM (m.read α)
  query : ∀ (α : Type) [Document α] (q : Query),
    (w.run ((Work.query α q).start s)).1.1 = m.readAll α q
  expiry : ∀ id : DocId,
    (w.run ((Work.expiry id).start s)).1.1 = .ok ((m.find? id).bind (·.expiresAt))

theorem readsFrom_of_mirrors (hcalm : w.Calm) (hkeyed : (w.memory s.store).Keyed)
    (hmirrors : s.Mirrors (w.memory s.store)) : w.ReadsFrom s (w.memory s.store) where
  load α _ id := by
    rw [run_load hcalm, hmirrors.seen, Memory.decode_ofLoaded hkeyed]
  loadMany α _ ids := by
    obtain ⟨next, hloaded, hseen⟩ := run_ensureLoaded_mirrored hcalm hmirrors ids
    unfold loadMany
    rw [run_start_bind hloaded, start_mapM_view_mirrored hkeyed hseen]
    rfl
  query α _ q := by
    unfold query Memory.readAll
    rw [start_bind, start_askStore, Interaction.call_bind, run_store, call_query hcalm]
    cases hquery : (w.memory s.store).query q with
    | error e => rfl
    | ok found =>
        obtain ⟨next, hgather⟩ := start_gather_mirrored (α := α) hmirrors fun d hd =>
          (Memory.mem_of_query hkeyed hquery hd).1
        change (w.run ((gather α found).start s)).1.1 = _
        rw [hgather]
        rfl
  expiry id := by
    rw [run_expiry hcalm, hmirrors.seen]
    cases (w.memory s.store).find? id <;> rfl

end Simulation.World

end Jobyard
