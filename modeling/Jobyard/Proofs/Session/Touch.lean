import Jobyard.Proofs.Session.Held

/-!
What an operation makes of its session as a whole. It looks at some documents, one after the other,
then it alters at most one document, and it may put off a write. So the session tracks the documents
in the order in which they were touched first, and it holds of a document what was written last, or
else what was held before, or else what was seen in the store.
-/

namespace Jobyard

theorem nodup_eraseDups {α : Type} [BEq α] [LawfulBEq α] (items : List α) :
    items.eraseDups.Nodup := by
  induction hlength : items.length using Nat.strongRecOn generalizing items with
  | _ length ih =>
      cases items with
      | nil => exact List.nodup_nil
      | cons first rest =>
          have hshorter : (rest.filter fun other => !other == first).length < length := by
            rw [← hlength, List.length_cons]
            exact Nat.lt_succ_of_le (List.length_filter_le ..)
          rw [List.eraseDups_cons]
          exact List.nodup_cons.mpr ⟨by simp, ih _ hshorter _ rfl⟩

inductive Alteration
  | stored (body : Json)
  | deleted
  | dated (expiresAt : Option Instant)

def Alteration.writes? : Alteration → Option (Option Json)
  | stored body => some (some body)
  | deleted => some none
  | dated _ => none

def Tracked.altered (t : Tracked) : Alteration → Tracked
  | .stored body => t.hold body
  | .deleted => t.drop
  | .dated expiresAt => t.date expiresAt

namespace Session

variable {s : Session} {m : Memory} {id : DocId}

def altering (s : Session) : Option (DocId × Alteration) → Session
  | some (id, alteration) => s.track id (((s.find? id).getD .unasked).altered alteration)
  | none => s

def deferring (s : Session) (writes : List Write) : Session :=
  { s with deferred := s.deferred ++ writes }

theorem altering_track (s : Session) (id : DocId) (t : Tracked) (alteration : Alteration) :
    (s.track id t).altering (some (id, alteration)) = s.track id (t.altered alteration) := by
  change (s.track id t).track id ((((s.track id t).find? id).getD .unasked).altered alteration) = _
  rw [find?_track_self, Option.getD_some, track_track]

/-- An expiry is set only on a document that the session holds as present. -/
def Permits (s : Session) (alteration : Option (DocId × Alteration)) : Prop :=
  ∀ id expiresAt, alteration = some (id, .dated expiresAt) →
    ((s.find? id).getD .unasked).isPresent = true

theorem held?_altering {alteration : Option (DocId × Alteration)} (h : s.Permits alteration)
    (id : DocId) :
    (s.altering alteration).held? id =
      (alteration.bind fun entry => if entry.1 = id then entry.2.writes? else none).or
        (s.held? id) := by
  cases alteration with
  | none => rfl
  | some entry =>
      obtain ⟨other, change⟩ := entry
      simp only [altering, held?_track, Option.bind_some]
      by_cases hother : other = id
      · subst hother
        simp only [if_true]
        cases change with
        | stored body => rfl
        | deleted => rfl
        | dated expiresAt =>
            have hpresent := h other expiresAt rfl
            have hbody := (Tracked.becomes_date hpresent expiresAt).body
            simp only [Tracked.altered, Alteration.writes?, Option.some_or, Option.none_or, hbody]
            unfold held?
            cases hfound : s.find? other with
            | some t => rfl
            | none =>
                rw [hfound] at hpresent
                cases hpresent
      · rw [if_neg hother, if_neg hother]

def order (s : Session) : List DocId := s.tracked.map (·.1)

theorem mem_order_iff (hdistinct : s.order.Nodup) : id ∈ s.order ↔ s.isTracked id = true := by
  unfold isTracked
  rw [Option.isSome_iff_exists]
  constructor
  · intro hmem
    obtain ⟨⟨_, t⟩, hentry, rfl⟩ := List.mem_map.mp hmem
    exact ⟨t, (mem_tracked_iff hdistinct).mp hentry⟩
  · rintro ⟨t, hfound⟩
    exact List.mem_map.mpr ⟨(id, t), (mem_tracked_iff hdistinct).mpr hfound, rfl⟩

def FirstTouched (s : Session) (touched : List DocId) : Prop := s.order = touched.eraseDups

variable {touched : List DocId}

theorem FirstTouched.nodup (h : s.FirstTouched touched) : s.order.Nodup := by
  rw [h]
  exact nodup_eraseDups touched

theorem FirstTouched.track (h : s.FirstTouched touched) (id : DocId) (t : Tracked) :
    (s.track id t).FirstTouched (touched ++ [id]) := by
  have horder : (s.track id t).order = if id ∈ s.order then s.order else s.order ++ [id] :=
    map_fst_place id t s.tracked
  unfold FirstTouched
  rw [horder, h, List.eraseDups_append]
  by_cases hmem : id ∈ touched
  · simp [hmem, List.removeAll]
  · simp [hmem, List.removeAll, List.eraseDups_cons]

theorem FirstTouched.looking (h : s.FirstTouched touched) (m : Memory) (ids : List DocId) :
    (s.looking m ids).FirstTouched (touched ++ ids) := by
  induction ids generalizing s touched with
  | nil => rwa [List.append_nil]
  | cons id rest ih =>
      have hrest := ih (h.track id (s.seen m id))
      rwa [List.append_assoc] at hrest

theorem FirstTouched.altering (h : s.FirstTouched touched)
    (alteration : Option (DocId × Alteration)) :
    (s.altering alteration).FirstTouched (touched ++ (alteration.map (·.1)).toList) := by
  cases alteration with
  | none => rwa [Option.map_none, Option.toList_none, List.append_nil]
  | some entry => exact h.track entry.1 _

end Session

namespace SessionOp

open Simulation (World)

def alters (w : World) (s : Session) : SessionOp → Option (DocId × Alteration)
  | save _ id document => some (id, .stored (Document.encode document))
  | delete id => some (id, .deleted)
  | loadOrBlank α id =>
    match w.loads s α id with
    | .ok none => some (id, .stored (Document.encode (FindOrCreate.blank : α)))
    | _ => none
  | updateExpiry id expiresAt =>
    match (w.run ((Work.updateExpiry id expiresAt).start s)).1.1 with
    | .ok true => some (id, .dated expiresAt)
    | _ => none
  | _ => none

def defers : SessionOp → List Write
  | defer write => [write]
  | _ => []

def touches (w : World) (s : Session) (op : SessionOp) : List DocId :=
  op.looks w s ++ ((op.alters w s).map (·.1)).toList

variable {w : World} {s : Session}

theorem session_run (hcalm : w.Calm) (hkeyed : (w.memory s.store).Keyed) {op : SessionOp}
    (hunsent : ¬ op.Sends w s) :
    (w.run (op.work.start s)).1.2 =
      ((s.looking (w.memory s.store) (op.looks w s)).altering (op.alters w s)).deferring
        op.defers := by
  have hkept : ∀ next : Session, next.deferring [] = next := fun next => by
    simp [Session.deferring]
  cases op with
  | load α id =>
      rw [SessionOp.work, World.session_discard, World.run_load hcalm]
      exact (hkept _).symm
  | loadMany α ids =>
      rw [SessionOp.work, World.session_discard, World.run_loadMany hcalm]
      exact (hkept _).symm
  | loadOrBlank α id =>
      rw [SessionOp.work, World.session_discard, World.run_loadOrBlank hcalm]
      simp only [alters, looks, defers, hkept, World.loads_eq hcalm, Tracked.fill]
      cases (s.seen (w.memory s.store) id).decode α id with
      | error e => rfl
      | ok found =>
          cases found with
          | some document => rfl
          | none => exact (s.altering_track id _ (.stored _)).symm
  | query α q =>
      rw [SessionOp.work, World.session_discard, World.run_query_seen hcalm hkeyed]
      exact (hkept _).symm
  | count q =>
      rw [SessionOp.work, World.session_discard]
      exact (hkept s).symm
  | save α id document =>
      change s.put id _ = _
      rw [Session.put_eq_track]
      exact (hkept _).symm
  | delete id =>
      change s.delete id = _
      rw [Session.delete_eq_track]
      exact (hkept _).symm
  | expiry id =>
      rw [SessionOp.work, World.session_discard, World.run_expiry hcalm]
      exact (hkept _).symm
  | updateExpiry id expiresAt =>
      rw [SessionOp.work, World.session_discard]
      simp only [alters, looks, defers, hkept, World.run_updateExpiry hcalm]
      cases (s.seen (w.memory s.store) id).isPresent with
      | false => rfl
      | true => exact (s.altering_track id _ (.dated expiresAt)).symm
  | defer write => rfl
  | saveChanges =>
      change (w.run (Work.saveChanges.start s)).1.2 = _
      rw [World.run_saveChanges_unsent hunsent]
      exact (hkept s).symm

theorem permits_alters (hcalm : w.Calm) (op : SessionOp) :
    (s.looking (w.memory s.store) (op.looks w s)).Permits (op.alters w s) := by
  intro id expiresAt h
  cases op with
  | updateExpiry other time =>
      simp only [alters, World.run_updateExpiry hcalm] at h
      cases hpresent : (s.seen (w.memory s.store) other).isPresent with
      | false =>
          rw [hpresent] at h
          cases h
      | true =>
          rw [hpresent] at h
          cases h
          have hfound := s.notices_looking (w.memory s.store) [id] id
          rw [if_pos (List.mem_singleton_self id)] at hfound
          rw [looks, hfound]
          exact hpresent
  | loadOrBlank α other =>
      simp only [alters] at h
      split at h <;> cases h
  | _ => cases h

theorem writes?_eq (w : World) (s : Session) (id : DocId) (op : SessionOp) :
    op.writes? w s id =
      (op.alters w s).bind fun entry => if entry.1 = id then entry.2.writes? else none := by
  cases op with
  | loadOrBlank α other =>
      simp only [writes?, alters]
      cases w.loads s α other with
      | error e => rfl
      | ok found => cases found <;> rfl
  | updateExpiry other expiresAt =>
      simp only [writes?, alters]
      split
      · exact (ite_self none).symm
      · rfl
  | _ => rfl

/-- What an operation leaves in the session of a document: what it writes, or else what was held
before, or else what the operation saw. -/
theorem held?_run (hcalm : w.Calm) (hkeyed : (w.memory s.store).Keyed) {op : SessionOp}
    (hunsent : ¬ op.Sends w s) (id : DocId) :
    (w.run (op.work.start s)).1.2.held? id = (op.writes? w s id).or ((s.held? id).or
      (if id ∈ op.looks w s then some ((w.memory s.store).body? id) else none)) := by
  have hlooking := (s.notices_looking (w.memory s.store) (op.looks w s)).held? id
  have haltering := Session.held?_altering (s := s.looking (w.memory s.store) (op.looks w s))
    (permits_alters hcalm op) id
  rw [session_run hcalm hkeyed hunsent, writes?_eq, ← hlooking]
  exact haltering

end SessionOp

end Jobyard
