import Jobyard.Proofs.Session.Learned
import Jobyard.Proofs.Simulation.Calm

/-!
Work on one document in a calm world. The store is asked for the document at most once and the
world stays as it is, so that all such work is a change of what the session holds of the document.
-/

namespace Jobyard

namespace Tracked

/-- A document that was touched before the store was asked for it. -/
def unasked : Tracked := ⟨none, none, false, none, .unchanged⟩

def hold (t : Tracked) (body : Json) : Tracked := { t with body := some body, status := .dirty }

def drop (t : Tracked) : Tracked := { t with status := .deleted }

def date (t : Tracked) (expiresAt : Option Instant) : Tracked :=
  { t with expiresAt, status := .dirty }

@[simp] theorem isPresent_hold (t : Tracked) (body : Json) : (t.hold body).isPresent = true := rfl

@[simp] theorem isPresent_drop (t : Tracked) : t.drop.isPresent = false := by
  simp [isPresent, drop]

theorem isPresent_of_decode {α : Type} [Document α] {t : Tracked} {id : DocId} {document : α}
    (h : t.decode α id = .ok (some document)) : t.isPresent = true := by
  unfold decode at h
  split at h
  · cases h
  · cases h
  · rename_i body hbody hdeleted
    have hstatus : t.status ≠ .deleted := hdeleted
    simp [isPresent, hbody, hstatus]

/-- What is loaded for work that starts from the blank document if there is none. -/
def fill (α : Type) [FindOrCreate α] (id : DocId) (t : Tracked) :
    Except StoreError (α × Tracked) := do
  match ← t.decode α id with
  | some document => .ok (document, t)
  | none => .ok (FindOrCreate.blank, t.hold (Document.encode (FindOrCreate.blank : α)))

theorem isPresent_of_fill {α : Type} [FindOrCreate α] {id : DocId} {t next : Tracked}
    {document : α} (h : t.fill α id = .ok (document, next)) : next.isPresent = true := by
  obtain ⟨found, hdecode, hfound⟩ := bind_eq_ok.mp h
  cases found with
  | some _ =>
      cases hfound
      exact isPresent_of_decode hdecode
  | none =>
      cases hfound
      exact isPresent_hold t _

end Tracked

namespace Session

def seen (s : Session) (m : Memory) (id : DocId) : Tracked :=
  (s.find? id).getD (.ofLoaded (m.find? id))

theorem place_of_lookup {id : DocId} {t : Tracked} {tracked : List (DocId × Tracked)}
    (h : tracked.lookup id = some t) : place id t tracked = tracked := by
  induction tracked with
  | nil => cases h
  | cons first rest ih =>
      obtain ⟨key, u⟩ := first
      unfold place
      by_cases hkey : key = id
      · subst hkey
        rw [List.lookup_cons_self] at h
        cases h
        exact if_pos rfl
      · rw [if_neg hkey, ih]
        rwa [List.lookup_cons, beq_false_of_ne (Ne.symm hkey)] at h

theorem place_place (id : DocId) (t u : Tracked) (tracked : List (DocId × Tracked)) :
    place id u (place id t tracked) = place id u tracked := by
  induction tracked with
  | nil => simp [place]
  | cons first rest ih =>
      obtain ⟨key, v⟩ := first
      by_cases hkey : key = id
      · simp [place, hkey]
      · simp [place, hkey, ih]

theorem map_fst_place (id : DocId) (t : Tracked) (tracked : List (DocId × Tracked)) :
    (place id t tracked).map (·.1) =
      if id ∈ tracked.map (·.1) then tracked.map (·.1) else tracked.map (·.1) ++ [id] := by
  induction tracked with
  | nil => rfl
  | cons first rest ih =>
      obtain ⟨key, u⟩ := first
      by_cases hkey : key = id
      · simp [place, hkey]
      · simp only [place, if_neg hkey, List.map_cons, ih, List.mem_cons, Ne.symm hkey, false_or]
        split <;> rfl

variable {s : Session} {id : DocId} {t : Tracked}

theorem track_of_find? (h : s.find? id = some t) : s.track id t = s := by
  unfold track
  rw [place_of_lookup h]

theorem track_track (s : Session) (id : DocId) (t u : Tracked) :
    (s.track id t).track id u = s.track id u := by
  unfold track
  rw [place_place]

theorem find?_track_self (s : Session) (id : DocId) (t : Tracked) :
    (s.track id t).find? id = some t := by
  rw [find?_track, if_pos rfl]

theorem put_eq_track (s : Session) (id : DocId) (body : Json) :
    s.put id body = s.track id (((s.find? id).getD .unasked).hold body) := by
  unfold put
  cases s.find? id <;> rfl

theorem delete_eq_track (s : Session) (id : DocId) :
    s.delete id = s.track id ((s.find? id).getD .unasked).drop := by
  unfold delete
  cases s.find? id <;> rfl

theorem put_track (s : Session) (id : DocId) (t : Tracked) (body : Json) :
    (s.track id t).put id body = s.track id (t.hold body) := by
  rw [put_eq_track, find?_track_self, track_track]
  rfl

theorem delete_track (s : Session) (id : DocId) (t : Tracked) :
    (s.track id t).delete id = s.track id t.drop := by
  rw [delete_eq_track, find?_track_self, track_track]
  rfl

theorem isNew_eq (h : ((s.find? id).getD .unasked).isPresent = true) :
    s.isNew id = ((s.find? id).getD .unasked).etag.isNone := by
  unfold isNew
  cases hseen : s.find? id with
  | none =>
      rw [hseen] at h
      cases h
  | some t =>
      rw [hseen, Option.getD_some] at h
      simp [h]

def Distinct (s : Session) : Prop := (s.tracked.map (·.1)).Nodup

theorem distinct_empty (store : StoreRef) (optimistic : Bool) : (empty store optimistic).Distinct :=
  List.nodup_nil

theorem Distinct.track (h : s.Distinct) (id : DocId) (t : Tracked) : (s.track id t).Distinct := by
  change ((place id t s.tracked).map (·.1)).Nodup
  rw [map_fst_place]
  split
  · exact h
  · rename_i hnew
    exact List.nodup_append.mpr ⟨h, List.pairwise_singleton _ _, by
      rintro a ha b hb rfl
      exact hnew (List.mem_singleton.mp hb ▸ ha)⟩

theorem mem_tracked_iff (h : s.Distinct) : (id, t) ∈ s.tracked ↔ s.find? id = some t := by
  unfold find?
  unfold Distinct at h
  generalize s.tracked = tracked at h
  induction tracked with
  | nil => simp
  | cons first rest ih =>
      obtain ⟨key, u⟩ := first
      obtain ⟨hnew, hrest⟩ := List.nodup_cons.mp h
      by_cases hkey : id = key
      · subst hkey
        rw [List.lookup_cons_self, List.mem_cons]
        constructor
        · rintro (heq | hmem)
          · cases heq
            rfl
          · exact absurd (List.mem_map_of_mem hmem) hnew
        · intro heq
          cases heq
          exact .inl rfl
      · rw [List.lookup_cons, beq_false_of_ne hkey, List.mem_cons, ih hrest]
        simp [hkey]

end Session

theorem Work.start_updateExpiry_track {s : Session} {id : DocId} {t : Tracked}
    (h : t.isPresent = true) (expiresAt : Option Instant) :
    Work.start (Work.updateExpiry id expiresAt) (s.track id t) =
      .done (.ok true, s.track id (t.date expiresAt)) := by
  have hmissing : Work.missing (s.track id t) [id] = [] := by
    simp [Work.missing, Session.isTracked, Session.find?_track_self]
  unfold Work.updateExpiry
  rw [Work.start_bind, Work.start_ensureLoaded, hmissing, List.isEmpty_nil, if_pos rfl]
  simp only [Interaction.done_bind]
  rw [Work.start_bind, Work.start_get]
  simp only [Interaction.done_bind, Session.find?_track_self, h, if_true]
  rw [Work.start_bind, Work.start_modify]
  simp only [Interaction.done_bind, Session.track_track]
  rfl

namespace Simulation.World

open Work

variable {α β : Type} {w : World}

theorem run_done (w : World) (value : α) : w.run (.done value) = (value, w) := rfl

theorem run_bind (w : World) (p : Program α) (f : α → Program β) :
    w.run (p >>= f) = (w.run p).2.run (f (w.run p).1) := by
  unfold run
  rw [Interaction.run_bind]
  rfl

theorem run_action_bind {a : Action α} {value : α} {after : World}
    (h : w.run a.run = (.ok value, after))
    (f : α → Action β) : w.run (a >>= f).run = after.run (f value).run := by
  change w.run (a.run >>= fun result => ExceptT.bindCont f result) = _
  rw [run_bind, h]
  rfl

theorem run_action_bind_error {a : Action α} {e : StoreError} {after : World}
    (h : w.run a.run = (.error e, after)) (f : α → Action β) :
    w.run (a >>= f).run = (.error e, after) := by
  change w.run (a.run >>= fun result => ExceptT.bindCont f result) = _
  rw [run_bind, h]
  rfl

theorem run_start_bind {work : Work α} {s next : Session} {value : α} {after : World}
    (h : w.run (work.start s) = ((.ok value, next), after)) (f : α → Work β) :
    w.run ((work >>= f).start s) = after.run ((f value).start next) := by
  rw [start_bind, run_bind, h]

theorem run_start_bind_error {work : Work α} {s next : Session} {e : StoreError} {after : World}
    (h : w.run (work.start s) = ((.error e, next), after)) (f : α → Work β) :
    w.run ((work >>= f).start s) = ((.error e, next), after) := by
  rw [start_bind, run_bind, h]
  rfl

theorem call_load (hcalm : w.Calm) (store : StoreRef) (ids : List DocId) :
    w.call store (.load ids) = (.ok ((w.memory store).load ids), w) := by
  rw [call_eq_of_calm hcalm]
  rfl

theorem call_query (hcalm : w.Calm) (store : StoreRef) (query : Query) :
    w.call store (.query query) = ((w.memory store).query query, w) := by
  rw [call_eq_of_calm hcalm]
  rfl

theorem run_ensureLoaded (hcalm : w.Calm) (s : Session) (id : DocId) :
    w.run ((ensureLoaded [id]).start s) =
      ((.ok (), s.track id (s.seen (w.memory s.store) id)), w) := by
  rw [start_ensureLoaded]
  cases hfound : s.find? id with
  | some t =>
      have hmissing : missing s [id] = [] := by simp [missing, Session.isTracked, hfound]
      rw [hmissing]
      simp [Session.seen, hfound, Session.track_of_find? hfound, run_done]
  | none =>
      have hmissing : missing s [id] = [id] := by simp [missing, Session.isTracked, hfound]
      rw [hmissing]
      simp only [List.isEmpty_cons, Bool.false_eq_true, if_false]
      rw [run_store, call_load hcalm]
      simp [Session.seen, hfound, Session.absorb, Memory.load, run_done]

theorem run_view (w : World) (α : Type) [Document α] (s : Session) (id : DocId) (t : Tracked) :
    w.run ((view α id).start (s.track id t)) = ((t.decode α id, s.track id t), w) := by
  rw [start_view, Session.find?_track_self]
  rfl

theorem run_load (hcalm : w.Calm) (α : Type) [Document α] (s : Session) (id : DocId) :
    w.run ((load α id).start s) =
      (((s.seen (w.memory s.store) id).decode α id,
        s.track id (s.seen (w.memory s.store) id)), w) := by
  unfold load
  rw [run_start_bind (run_ensureLoaded hcalm s id)]
  exact run_view w α s id _

theorem run_save [Document α] (w : World) (s : Session) (id : DocId) (t : Tracked)
    (document : α) :
    w.run ((save id document).start (s.track id t)) =
      ((.ok (), s.track id (t.hold (Document.encode document))), w) := by
  unfold save
  rw [start_modify, Session.put_track]
  rfl

theorem run_delete (w : World) (s : Session) (id : DocId) (t : Tracked) :
    w.run ((Work.delete id).start (s.track id t)) = ((.ok (), s.track id t.drop), w) := by
  unfold Work.delete
  rw [start_modify, Session.delete_track]
  rfl

theorem run_now (w : World) (s : Session) : w.run (now.start s) = ((.ok w.clock, s), w) := rfl

theorem run_loadOrBlank (hcalm : w.Calm) (α : Type) [FindOrCreate α] (s : Session) (id : DocId) :
    w.run ((loadOrBlank α id).start s) =
      match (s.seen (w.memory s.store) id).fill α id with
      | .ok (document, t) => ((.ok document, s.track id t), w)
      | .error e => ((.error e, s.track id (s.seen (w.memory s.store) id)), w) := by
  have hload := run_load hcalm α s id
  unfold loadOrBlank Tracked.fill
  cases hdecode : (s.seen (w.memory s.store) id).decode α id with
  | error e =>
      rw [hdecode] at hload
      exact run_start_bind_error hload _
  | ok found =>
      rw [hdecode] at hload
      rw [run_start_bind hload]
      cases found with
      | some document => rfl
      | none =>
          simp only
          rw [run_start_bind (run_save w s id _ (FindOrCreate.blank : α))]
          rfl

theorem run_expiry (hcalm : w.Calm) (s : Session) (id : DocId) :
    w.run ((Work.expiry id).start s) =
      ((.ok (if (s.seen (w.memory s.store) id).isPresent
          then (s.seen (w.memory s.store) id).expiresAt else none),
        s.track id (s.seen (w.memory s.store) id)), w) := by
  have hget : ∀ s : Session, w.run ((get : Work Session).start s) = ((.ok s, s), w) := fun _ => rfl
  unfold Work.expiry
  rw [run_start_bind (run_ensureLoaded hcalm s id), run_start_bind (hget _)]
  simp only [Session.find?_track_self]
  rfl

theorem run_updateExpiry (hcalm : w.Calm) (s : Session) (id : DocId)
    (expiresAt : Option Instant) :
    w.run ((updateExpiry id expiresAt).start s) =
      ((.ok (s.seen (w.memory s.store) id).isPresent,
        s.track id (if (s.seen (w.memory s.store) id).isPresent
          then (s.seen (w.memory s.store) id).date expiresAt
          else s.seen (w.memory s.store) id)), w) := by
  have hget : ∀ s : Session, w.run ((get : Work Session).start s) = ((.ok s, s), w) := fun _ => rfl
  unfold updateExpiry
  rw [run_start_bind (run_ensureLoaded hcalm s id), run_start_bind (hget _)]
  simp only [Session.find?_track_self]
  cases hpresent : (s.seen (w.memory s.store) id).isPresent with
  | false => rfl
  | true =>
      change ((_, (s.track id _).track id _), w) = _
      rw [Session.track_track]
      rfl

theorem run_discard {work : Work α} {s next : Session} {value : α} {after : World}
    (h : w.run (work.start s) = ((.ok value, next), after)) :
    w.run ((discard work).start s) = ((.ok (), next), after) := by
  change w.run ((work >>= fun _ => pure ()).start s) = _
  rw [run_start_bind h]
  rfl

theorem run_discard_error {work : Work α} {s next : Session} {e : StoreError} {after : World}
    (h : w.run (work.start s) = ((.error e, next), after)) :
    w.run ((discard work).start s) = ((.error e, next), after) :=
  run_start_bind_error h _

end Simulation.World

end Jobyard
