import Jobyard.Proofs.Session.Glimpse
import Jobyard.Proofs.Session.Mirror
import Jobyard.Proofs.Session.Operation
import Jobyard.Proofs.Transaction.Revision

/-!
What a session holds of its documents, and what it holds after it looked at some of them. Every read
gives what is held, or else what the store has.
-/

namespace Jobyard

def Memory.body? (m : Memory) (id : DocId) : Option Json := (m.find? id).map (·.body)

def upTo {α : Type} (stops : α → Bool) : List α → List α
  | [] => []
  | a :: rest => if stops a then [a] else a :: upTo stops rest

namespace Session

variable {s middle next : Session} {m : Memory} {ids more : List DocId}

/-- What the session holds of a document, if only that there is none. -/
def held? (s : Session) (id : DocId) : Option (Option Json) := (s.find? id).map (·.body?)

theorem held?_track (s : Session) (id other : DocId) (t : Tracked) :
    (s.track id t).held? other =
      (if id = other then some t.body? else none).or (s.held? other) := by
  unfold held?
  rw [find?_track]
  by_cases hid : id = other
  · rw [if_pos hid, if_pos hid.symm]
    rfl
  · rw [if_neg hid, if_neg (Ne.symm hid)]
    rfl

theorem body?_seen (s : Session) (m : Memory) (id : DocId) :
    (s.seen m id).body? = (s.held? id).getD (m.body? id) := by
  unfold seen held?
  cases s.find? id with
  | none =>
      unfold Memory.body?
      cases m.find? id <;> rfl
  | some t => rfl

/-- A session that goes on with some documents as it saw them in its store, unless it held them
already. -/
def Notices (m : Memory) (s next : Session) (ids : List DocId) : Prop :=
  ∀ id, next.find? id = if id ∈ ids then some (s.seen m id) else s.find? id

theorem notices_nil (m : Memory) (s : Session) : s.Notices m s [] :=
  fun _ => (if_neg List.not_mem_nil).symm

theorem notices_track_seen (m : Memory) (s : Session) (id : DocId) :
    Notices m s (s.track id (s.seen m id)) [id] := by
  intro other
  rw [find?_track]
  by_cases hother : other = id
  · rw [if_pos hother, if_pos (List.mem_singleton.mpr hother), hother]
  · rw [if_neg hother, if_neg (fun h => hother (List.mem_singleton.mp h))]

theorem Notices.seen (h : Notices m s next ids) (id : DocId) : next.seen m id = s.seen m id := by
  unfold Session.seen
  rw [h id]
  split <;> rfl

theorem Notices.trans (hfirst : Notices m s middle ids) (hsecond : Notices m middle next more) :
    Notices m s next (ids ++ more) := by
  intro id
  rw [hsecond id, hfirst id, hfirst.seen id]
  by_cases hmore : id ∈ more
  · simp [hmore]
  · simp [hmore]

theorem Notices.held? (h : Notices m s next ids) (id : DocId) :
    next.held? id = (s.held? id).or (if id ∈ ids then some (m.body? id) else none) := by
  have hseen := body?_seen s m id
  unfold Session.held? at hseen ⊢
  rw [h id]
  split
  · rw [Option.map_some, hseen]
    cases s.find? id <;> rfl
  · exact Option.or_none.symm

def look (m : Memory) (s : Session) (id : DocId) : Session := s.track id (s.seen m id)

def looking (s : Session) (m : Memory) (ids : List DocId) : Session := ids.foldl (look m) s

theorem notices_looking (s : Session) (m : Memory) (ids : List DocId) :
    s.Notices m (s.looking m ids) ids := by
  induction ids generalizing s with
  | nil => exact s.notices_nil m
  | cons id rest ih => exact (s.notices_track_seen m id).trans (ih (s.look m id))

theorem look_of_tracked {id : DocId} {t : Tracked} (h : s.find? id = some t) :
    s.look m id = s := by
  unfold look seen
  rw [h]
  exact track_of_find? h

theorem observe_eq_look {d : Stored} (hd : m.find? d.id = some d) :
    s.observe d = s.look m d.id := by
  unfold observe isTracked
  cases hfound : s.find? d.id with
  | some t => exact (look_of_tracked hfound).symm
  | none =>
      unfold look seen
      rw [hfound, hd]
      rfl

theorem seen_look (s : Session) (m : Memory) (id other : DocId) :
    (s.look m id).seen m other = s.seen m other :=
  (s.notices_track_seen m id).seen other

/-- To have the untracked documents loaded at once is to look at all of them in turn. -/
theorem absorb_load_eq_looking {fresh : DocId → Bool} {ids : List DocId}
    (hfresh : ∀ id ∈ ids, fresh id = true → s.seen m id = .ofLoaded (m.find? id))
    (htracked : ∀ id ∈ ids, fresh id = false → s.isTracked id = true) :
    s.absorb ((ids.filter fresh).zip (m.load (ids.filter fresh))) = s.looking m ids := by
  induction ids generalizing s with
  | nil => rfl
  | cons id rest ih =>
      have hrest : (s.look m id).absorb ((rest.filter fresh).zip (m.load (rest.filter fresh))) =
          (s.look m id).looking m rest := by
        refine ih (fun other hmem h => ?_) fun other hmem h => ?_
        · rw [seen_look]
          exact hfresh other (List.mem_cons_of_mem id hmem) h
        · have hother := htracked other (List.mem_cons_of_mem id hmem) h
          change ((s.track id _).find? other).isSome = true
          rw [find?_track]
          split
          · rfl
          · exact hother
      cases hid : fresh id with
      | true =>
          rw [List.filter_cons_of_pos hid]
          change (s.track id (.ofLoaded (m.find? id))).absorb _ = (s.look m id).looking m rest
          rw [← hfresh id List.mem_cons_self hid]
          exact hrest
      | false =>
          obtain ⟨t, ht⟩ := Option.isSome_iff_exists.mp (htracked id List.mem_cons_self hid)
          rw [List.filter_cons_of_neg (by simp [hid])]
          change _ = (s.look m id).looking m rest
          rw [look_of_tracked ht] at hrest ⊢
          exact hrest

end Session

namespace Work

variable {α : Type}

def present (read : DocId → Except StoreError (Option α)) (found : List Stored) :
    Except StoreError (List (DocId × α)) :=
  (found.mapM fun d => (read d.id).map fun seen => seen.map fun document => (d.id, document)).map
    (List.filterMap id)

theorem present_cons (read : DocId → Except StoreError (Option α)) (d : Stored)
    (rest : List Stored) :
    present read (d :: rest) = (do
      let seen ← read d.id
      let others ← present read rest
      return seen.elim others fun document => (d.id, document) :: others) := by
  unfold present
  rw [List.mapM_cons]
  cases read d.id with
  | error e => rfl
  | ok seen =>
      generalize (rest.mapM fun d => (read d.id).map fun seen =>
        seen.map fun document => (d.id, document)) = result
      cases result with
      | error e => rfl
      | ok others => cases seen <;> rfl

theorem present_eq_ok {read : DocId → Except StoreError (Option α)} {found : List Stored}
    {entries : List (DocId × α)} (h : present read found = .ok entries) :
    (entries.map (·.1)).Sublist (found.map (·.id)) ∧
      ∀ entry ∈ entries, read entry.1 = .ok (some entry.2) := by
  induction found generalizing entries with
  | nil =>
      cases h
      exact ⟨.slnil, fun _ hmem => nomatch hmem⟩
  | cons d rest ih =>
      rw [present_cons] at h
      obtain ⟨seen, hread, h⟩ := bind_eq_ok.mp h
      obtain ⟨others, hothers, h⟩ := bind_eq_ok.mp h
      obtain ⟨hsublist, hentries⟩ := ih hothers
      cases seen with
      | none =>
          cases h
          exact ⟨hsublist.cons _, hentries⟩
      | some document =>
          cases h
          refine ⟨hsublist.cons_cons _, fun entry hmem => ?_⟩
          rcases List.mem_cons.mp hmem with rfl | hmem
          · exact hread
          · exact hentries entry hmem

variable [Document α] {s : Session} {m : Memory}

theorem start_mapM_view_seen {ids : List DocId} {seen : DocId → Tracked}
    (hseen : ∀ id ∈ ids, s.find? id = some (seen id)) :
    start (ids.mapM (view α)) s = .done (ids.mapM fun id => (seen id).decode α id, s) := by
  induction ids with
  | nil => rfl
  | cons id rest ih =>
      rw [List.mapM_cons, List.mapM_cons, start_bind, start_view, hseen id List.mem_cons_self,
        Option.elim_some]
      cases (seen id).decode α id with
      | error e => rfl
      | ok found =>
          simp only [Interaction.done_bind]
          rw [start_bind, ih fun other hmem => hseen other (List.mem_cons_of_mem id hmem)]
          simp only [Interaction.done_bind]
          cases rest.mapM fun id => (seen id).decode α id <;> rfl

theorem start_gather_seen {found : List Stored} (hfound : ∀ d ∈ found, m.find? d.id = some d)
    (s : Session) :
    start (gather α found) s =
      .done (present (fun id => (s.seen m id).decode α id) found, s.looking m
        ((upTo (fun d => !((s.seen m d.id).decode α d.id).isOk) found).map (·.id))) := by
  induction found generalizing s with
  | nil => rfl
  | cons d rest ih =>
      have hobserve := Session.observe_eq_look (s := s) (hfound d List.mem_cons_self)
      have hrest :=
        ih (fun other hmem => hfound other (List.mem_cons_of_mem d hmem)) (s.look m d.id)
      simp only [Session.seen_look] at hrest
      have hview : start (view α d.id) (s.look m d.id) =
          .done ((s.seen m d.id).decode α d.id, s.look m d.id) := by
        unfold Session.look
        rw [start_view, Session.find?_track_self]
        rfl
      unfold gather
      rw [start_bind, start_modify, hobserve]
      simp only [Interaction.done_bind]
      rw [start_bind, hview, present_cons, upTo]
      simp only [Interaction.done_bind]
      cases (s.seen m d.id).decode α d.id with
      | error e => rfl
      | ok seen =>
          simp only
          rw [start_bind, hrest]
          simp only [Interaction.done_bind]
          cases present (fun id => (s.seen m id).decode α id) rest with
          | error e => rfl
          | ok others => cases seen <;> rfl

end Work

namespace Simulation.World

open Work

variable {w : World} {s : Session} {id : DocId}

theorem run_ensureLoaded_looking (hcalm : w.Calm) (s : Session) (ids : List DocId) :
    w.run ((ensureLoaded ids).start s) = ((.ok (), s.looking (w.memory s.store) ids), w) := by
  have hlooking : s.absorb ((missing s ids).zip ((w.memory s.store).load (missing s ids))) =
      s.looking (w.memory s.store) ids := by
    refine Session.absorb_load_eq_looking (fun id _ hfresh => ?_) fun id _ htracked => ?_
    · have hnone : s.find? id = none := by simpa [Session.isTracked] using hfresh
      rw [Session.seen, hnone, Option.getD_none]
    · simpa using htracked
  rw [start_ensureLoaded]
  split
  · rename_i hempty
    rw [List.isEmpty_iff.mp hempty] at hlooking
    rw [← hlooking]
    rfl
  · rw [run_store, call_load hcalm, ← hlooking]
    rfl

def loads (w : World) (s : Session) (α : Type) [Document α] (id : DocId) :
    Except StoreError (Option α) :=
  (w.run ((Work.load α id).start s)).1.1

variable {α : Type} [Document α]

theorem loads_eq (hcalm : w.Calm) (s : Session) (id : DocId) :
    w.loads s α id = (s.seen (w.memory s.store) id).decode α id := by
  rw [loads, run_load hcalm]

theorem loads_eq_read (hcalm : w.Calm) (s : Session) (id : DocId) :
    w.loads s α id =
      Document.read α id ((s.held? id).getD ((w.memory s.store).body? id)) := by
  rw [loads_eq hcalm, Tracked.decode_eq_read, Session.body?_seen]

theorem run_loadMany (hcalm : w.Calm) (s : Session) (ids : List DocId) :
    w.run ((loadMany α ids).start s) =
      ((ids.mapM (w.loads s α), s.looking (w.memory s.store) ids), w) := by
  unfold loadMany
  rw [run_start_bind (run_ensureLoaded_looking hcalm s ids), start_mapM_view_seen fun id hid =>
    (s.notices_looking (w.memory s.store) ids id).trans (if_pos hid), funext (loads_eq hcalm s)]
  rfl

theorem run_query_seen (hcalm : w.Calm) (hkeyed : (w.memory s.store).Keyed) (q : Query) :
    w.run ((query α q).start s) =
      (((w.memory s.store).query q >>= present (w.loads s α), s.looking (w.memory s.store)
        (match (w.memory s.store).query q with
        | .ok found => (upTo (fun d => !(w.loads s α d.id).isOk) found).map (·.id)
        | .error _ => [])), w) := by
  unfold query
  rw [start_bind, start_askStore, Interaction.call_bind, run_store, call_query hcalm]
  cases hquery : (w.memory s.store).query q with
  | error e => rfl
  | ok found =>
      have hgather := start_gather_seen (α := α)
        (fun d hd => (Memory.mem_of_query hkeyed hquery hd).1) s
      simp only [← loads_eq hcalm] at hgather
      change w.run ((gather α found).start s) = _
      rw [hgather]
      rfl

theorem session_discard {β : Type} (w : World) (work : Work β) (s : Session) :
    (w.run ((discard work).start s)).1.2 = (w.run (work.start s)).1.2 := by
  rw [start_discard, run_bind]
  rfl

theorem run_saveChanges_unsent {s : Session}
    (hunsent : ¬ (s.batch ≠ [] ∧ (w.run (saveChanges.start s)).1.1.isOk)) :
    (w.run (saveChanges.start s)).1.2 = s := by
  rw [start_saveChanges] at hunsent ⊢
  split at hunsent
  · rename_i hempty
    rw [if_pos hempty]
    rfl
  · rename_i hempty
    rw [if_neg hempty, run_store]
    rw [run_store] at hunsent
    cases hreply : (w.call s.store (.commit s.batch)).1 with
    | error e => rfl
    | ok answer =>
        rw [hreply] at hunsent
        exact absurd ⟨fun h => hempty (List.isEmpty_iff.mpr h), rfl⟩ hunsent

end Simulation.World

namespace SessionOp

open Simulation (World)

/-- The documents that an operation looks at. A query gets no further than to the first that
cannot be read. -/
def looks (w : World) (s : Session) : SessionOp → List DocId
  | load _ id | loadOrBlank _ id | expiry id | updateExpiry id _ => [id]
  | loadMany _ ids => ids
  | query α q =>
    match (w.memory s.store).query q with
    | .ok found => (upTo (fun d => !(w.loads s α d.id).isOk) found).map (·.id)
    | .error _ => []
  | _ => []

def writes? (w : World) (s : Session) (id : DocId) : SessionOp → Option (Option Json)
  | save _ other document => if other = id then some (some (Document.encode document)) else none
  | delete other => if other = id then some none else none
  | loadOrBlank α other =>
    match w.loads s α other with
    | .ok none =>
      if other = id then some (some (Document.encode (FindOrCreate.blank : α))) else none
    | _ => none
  | _ => none

def Sends (w : World) (s : Session) : SessionOp → Prop
  | saveChanges => s.batch ≠ [] ∧ (w.run (Work.saveChanges.start s)).1.1.isOk
  | _ => False

end SessionOp

end Jobyard
