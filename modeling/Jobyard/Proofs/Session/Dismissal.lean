import Jobyard.Proofs.Session.Mirror
import Jobyard.Proofs.Transaction.Commit

/-!
Sessions that find documents and delete some of them. What they commit are deletions of the versions
that were found, all or none.
-/

namespace Jobyard

namespace Session

variable {s : Session} {store : StoreRef} {silent : List Stored} {m next : Memory}

/-- Deletions of documents in the versions that were seen, and nothing else. -/
structure Dismisses (s : Session) (store : StoreRef) (silent : List Stored) : Prop where
  store : s.store = store
  optimistic : s.optimistic = true
  distinct : s.Distinct
  deferred : s.deferred = []
  deletes : ∀ d ∈ silent,
    ((s.find? d.id).bind fun t => t.write? true d.id) = some (.delete d.id (.exact d.etag))
  spares : ∀ id, id ∉ silent.map (·.id) →
    ((s.find? id).bind fun t => t.write? true id) = none

theorem Dismisses.commit (h : s.Dismisses store silent) (hcommit : m.commit s.batch = .ok next) :
    (∀ d ∈ silent, ∃ current, m.find? d.id = some current ∧ current.etag = d.etag) ∧
      ∀ id, next.find? id = if id ∈ silent.map (·.id) then none else m.find? id := by
  have hrewrites : ∀ id, Memory.Rewrites
      ((s.find? id).bind fun t => t.write? true id).toList (m.find? id) (next.find? id) := by
    intro id
    have hall := rewrites_of_commit h.distinct hcommit id
    rwa [h.optimistic, h.deferred, List.filter_nil, List.append_nil] at hall
  have hdeleted : ∀ d ∈ silent, (∃ current, m.find? d.id = some current ∧ current.etag = d.etag) ∧
      next.find? d.id = none := by
    intro d hd
    have hone := hrewrites d.id
    rw [h.deletes d hd] at hone
    obtain ⟨_, _, houtcome⟩ := Memory.rewrites_singleton hone
    have haccepts := Memory.outcome_demand houtcome rfl
    refine ⟨?_, Memory.outcome_delete houtcome⟩
    cases hfound : m.find? d.id with
    | none =>
        rw [hfound] at haccepts
        cases haccepts
    | some current =>
        rw [hfound] at haccepts
        exact ⟨current, rfl, (beq_iff_eq.mp haccepts).symm⟩
  refine ⟨fun d hd => (hdeleted d hd).1, fun id => ?_⟩
  split
  · rename_i hmem
    obtain ⟨d, hd, rfl⟩ := List.mem_map.mp hmem
    exact (hdeleted d hd).2
  · rename_i hnot
    have hnone := hrewrites id
    rw [h.spares id hnot] at hnone
    exact Memory.rewrites_nil hnone

theorem observe_of_new {d : Stored} (hnew : s.find? d.id = none) :
    s.observe d = s.track d.id (.ofStored d) := by
  unfold observe isTracked
  rw [hnew]
  exact if_neg Bool.false_ne_true

theorem find?_observeAll {found : List Stored} (hnew : ∀ d ∈ found, s.find? d.id = none)
    (hnodup : (found.map (·.id)).Nodup) :
    (∀ d ∈ found, (found.foldl observe s).find? d.id = some (.ofStored d)) ∧
      ∀ id, id ∉ found.map (·.id) → (found.foldl observe s).find? id = s.find? id := by
  induction found generalizing s with
  | nil => exact ⟨fun _ h => (nomatch h), fun _ _ => rfl⟩
  | cons d rest ih =>
      obtain ⟨hfresh, hrest⟩ := List.nodup_cons.mp hnodup
      have hlater : ∀ other ∈ rest, other.id ≠ d.id :=
        fun other hmem hid => hfresh (List.mem_map.mpr ⟨other, hmem, hid⟩)
      have hstill : ∀ other ∈ rest, (s.track d.id (.ofStored d)).find? other.id = none := by
        intro other hmem
        rw [find?_track, if_neg (hlater other hmem)]
        exact hnew other (List.mem_cons_of_mem d hmem)
      obtain ⟨hheld, hothers⟩ := ih hstill hrest
      rw [List.foldl_cons, observe_of_new (hnew d List.mem_cons_self)]
      refine ⟨List.forall_mem_cons.mpr ⟨?_, hheld⟩, fun id hid => ?_⟩
      · rw [hothers d.id hfresh, find?_track_self]
      · rw [hothers id (List.not_mem_of_not_mem_cons hid), find?_track,
          if_neg (List.ne_of_not_mem_cons hid)]

theorem find?_deleteAll {α : Type} (entries : List (DocId × α)) (s : Session) (id : DocId) :
    (entries.foldl (fun s entry => s.delete entry.1) s).find? id =
      if id ∈ entries.map (·.1) then some ((s.find? id).getD .unasked).drop else s.find? id := by
  induction entries generalizing s with
  | nil => rfl
  | cons first rest ih =>
      rw [List.foldl_cons, ih, delete_eq_track, find?_track, List.map_cons]
      by_cases hfirst : id = first.1
      · subst hfirst
        rw [if_pos rfl, if_pos List.mem_cons_self]
        split <;> rfl
      · rw [if_neg hfirst]
        simp only [List.mem_cons, hfirst, false_or]

/-- Touches of documents change nothing else of a session. -/
structure Frames (s next : Session) : Prop where
  store : next.store = s.store
  optimistic : next.optimistic = s.optimistic
  deferred : next.deferred = s.deferred
  distinct : s.Distinct → next.Distinct

theorem frames_foldl {β : Type} {f : Session → β → Session}
    (hf : ∀ (s : Session) (value : β), s.Frames (f s value)) (values : List β) (s : Session) :
    s.Frames (values.foldl f s) := by
  induction values generalizing s with
  | nil => exact ⟨rfl, rfl, rfl, fun h => h⟩
  | cons value rest ih =>
      have hfirst := hf s value
      have hrest := ih (f s value)
      exact ⟨hrest.store.trans hfirst.store, hrest.optimistic.trans hfirst.optimistic,
        hrest.deferred.trans hfirst.deferred, fun h => hrest.distinct (hfirst.distinct h)⟩

theorem frames_observeAll (found : List Stored) (s : Session) :
    s.Frames (found.foldl observe s) := by
  refine frames_foldl (fun s d => ?_) found s
  unfold observe
  split
  · exact ⟨rfl, rfl, rfl, fun h => h⟩
  · exact ⟨rfl, rfl, rfl, fun h => h.track _ _⟩

theorem frames_deleteAll {α : Type} (entries : List (DocId × α)) (s : Session) :
    s.Frames (entries.foldl (fun s entry => s.delete entry.1) s) := by
  refine frames_foldl (fun s entry => ?_) entries s
  rw [delete_eq_track]
  exact ⟨rfl, rfl, rfl, fun h => h.track _ _⟩

theorem dismisses_deleteAll {α : Type} (store : StoreRef) {found : List Stored}
    (hnodup : (found.map (·.id)).Nodup) (hsilent : ∀ d ∈ silent, d ∈ found)
    {entries : List (DocId × α)} (hentries : entries.map (·.1) = silent.map (·.id)) :
    (entries.foldl (fun s entry => s.delete entry.1)
      (found.foldl observe (.empty store true))).Dismisses store silent := by
  have hfound := frames_observeAll found (.empty store true)
  have hlast := frames_deleteAll entries (found.foldl observe (.empty store true))
  obtain ⟨hheld, hothers⟩ := find?_observeAll (s := .empty store true) (fun _ _ => rfl) hnodup
  refine ⟨hlast.store.trans hfound.store, hlast.optimistic.trans hfound.optimistic,
    hlast.distinct (hfound.distinct (distinct_empty store true)),
    hlast.deferred.trans hfound.deferred, fun d hd => ?_, fun id hid => ?_⟩
  · rw [find?_deleteAll, hentries, if_pos (List.mem_map_of_mem hd), hheld d (hsilent d hd)]
    rfl
  · rw [find?_deleteAll, hentries, if_neg hid]
    by_cases hmem : id ∈ found.map (·.id)
    · obtain ⟨d, hd, rfl⟩ := List.mem_map.mp hmem
      rw [hheld d hd]
      rfl
    · rw [hothers id hmem]
      rfl

end Session

namespace Work

variable {α : Type} [Document α]

theorem start_gather_new {found : List Stored} {s : Session}
    (hnew : ∀ d ∈ found, s.find? d.id = none) (hnodup : (found.map (·.id)).Nodup) :
    ∃ next, start (gather α found) s =
        .done (found.mapM fun d => (d.decode α).map fun document => (d.id, document), next) ∧
      ∀ gathered, (found.mapM fun d => (d.decode α).map fun document => (d.id, document)) =
        .ok gathered → next = found.foldl Session.observe s := by
  induction found generalizing s with
  | nil => exact ⟨s, rfl, fun _ _ => rfl⟩
  | cons d rest ih =>
      obtain ⟨hfresh, hrest⟩ := List.nodup_cons.mp hnodup
      have hobserve := Session.observe_of_new (hnew d List.mem_cons_self)
      have hstill : ∀ other ∈ rest, (s.observe d).find? other.id = none := by
        intro other hmem
        rw [hobserve, Session.find?_track,
          if_neg fun hid => hfresh (List.mem_map.mpr ⟨other, hmem, hid⟩)]
        exact hnew other (List.mem_cons_of_mem d hmem)
      have hview : start (view α d.id) (s.observe d) =
          .done ((d.decode α).map some, s.observe d) := by
        rw [start_view, hobserve, Session.find?_track_self, Option.elim_some,
          Tracked.decode_ofStored]
      obtain ⟨next, hgather, hnext⟩ := ih hstill hrest
      unfold gather
      rw [start_bind, start_modify]
      simp only [Interaction.done_bind]
      rw [start_bind, hview, List.mapM_cons]
      simp only [Interaction.done_bind]
      cases d.decode α with
      | error e => exact ⟨s.observe d, rfl, fun _ h => nomatch h⟩
      | ok document =>
          refine ⟨next, ?_, fun gathered hok => ?_⟩
          · change start (gather α rest >>= fun others =>
              (pure ((d.id, document) :: others) : Work _)) (s.observe d) = _
            rw [start_bind, hgather]
            simp only [Interaction.done_bind]
            cases rest.mapM fun d => (d.decode α).map fun document => (d.id, document) <;> rfl
          · obtain ⟨_, _, hrest⟩ := bind_eq_ok.mp hok
            obtain ⟨others, hread, _⟩ := bind_eq_ok.mp hrest
            exact hnext others hread

end Work

end Jobyard
