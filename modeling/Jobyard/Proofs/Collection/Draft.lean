import Jobyard.Proofs.Collection.Plain
import Jobyard.Proofs.Transaction.Reach

/-!
Sessions that edit collections. What a session shows of the collections goes on from edit to edit
as the plain values do, and what it shows is what a commit leaves in the store.
-/

namespace Jobyard

open Counter

theorem Edit.act_of_ok {e : Edit} {now : Instant} {m : Memory} {s : Session} {t : Tracked}
    {writes : List Write} (h : e.revise now (e.sight m s) = .ok (t, writes)) :
    e.act now m s = (.ok (), s.amend e.id t writes) := by
  unfold act
  rw [h]

theorem Edit.act_of_error {e : Edit} {now : Instant} {m : Memory} {s : Session}
    {failure : StoreError} (h : e.revise now (e.sight m s) = .error failure) :
    e.act now m s = (.error failure, s.track e.id (e.sight m s)) := by
  unfold act
  rw [h]

theorem Edit.collection_ne_of_not_addition {e : Edit} (h : e.isAddition = false) :
    e.id.collection ≠ Document.collection Counter := by
  intro hid
  rw [isAddition_eq, hid] at h
  cases h

theorem Edit.isAddition_of_isRemoval {e : Edit} (h : e.isRemoval) : e.isAddition = false := by
  cases e with
  | addToCounter => cases h
  | _ => rfl

namespace Session

variable {p : Plain} {m next : Memory} {store : StoreRef} {calls : List Addition}
  {s : Session} {e : Edit} {now : Instant}

theorem Tallies.track_of_ne (h : s.Tallies store calls) {id : DocId}
    (hid : id.collection ≠ Document.collection Counter) (t : Tracked) :
    (s.track id t).Tallies store calls where
  store := h.store
  optimistic := h.optimistic
  distinct := h.distinct.track id t
  tallied key := by
    have hne : Document.idFor Counter key ≠ id := fun heq => hid (heq ▸ rfl)
    rw [find?_track, if_neg hne]
    exact h.tallied key

/-- A session over a store whose edits so far lead to plain values. -/
structure Drafts (p : Plain) (m : Memory) (store : StoreRef) (calls : List Addition)
    (s : Session) : Prop where
  tallies : s.Tallies store calls
  shows : p.Shows fun id => (s.seen m id).body?
  guarded : ∀ id t, s.find? id = some t →
    t.Guarded (m.find? id) ∧ (t.status = .unchanged → t = .ofLoaded (m.find? id))
  deferred : ∀ w ∈ s.deferred, w.id.collection = Document.collection Counter

theorem drafts_empty (store : StoreRef)
    (h : p.Shows fun id => (m.find? id).map (·.body)) :
    Drafts p m store [] (.empty store true) where
  tallies := tallies_empty store
  shows := h.congr fun id _ => by
    change (Tracked.ofLoaded (m.find? id)).body? = _
    cases m.find? id <;> rfl
  guarded _ _ h := nomatch h
  deferred _ h := nomatch h

theorem seen_track (s : Session) (id other : DocId) (t : Tracked) :
    (s.track id t).seen m other = if other = id then t else s.seen m other := by
  unfold seen
  rw [find?_track]
  split <;> rfl

theorem Drafts.look (h : Drafts p m store calls s) (id : DocId) :
    Drafts p m store calls (s.track id (s.seen m id)) := by
  cases hfound : s.find? id with
  | some t =>
      have hseen : s.seen m id = t := by simp [seen, hfound]
      rw [hseen, track_of_find? hfound]
      exact h
  | none =>
      have hseen : s.seen m id = .ofLoaded (m.find? id) := by simp [seen, hfound]
      refine ⟨?_, ?_, ?_, h.deferred⟩
      · by_cases hid : id.collection = Document.collection Counter
        · obtain ⟨collection, key⟩ := id
          obtain rfl : collection = Document.collection Counter := hid
          rw [hseen]
          exact h.tallies.track hfound _
        · exact h.tallies.track_of_ne hid _
      · refine h.shows.congr fun other _ => ?_
        rw [seen_track]
        split
        · rename_i hother
          rw [hother]
        · rfl
      · intro other t hother
        rw [find?_track] at hother
        split at hother
        · rename_i hsame
          cases hother
          rw [hsame, hseen]
          exact ⟨Tracked.guarded_ofLoaded _, fun _ => rfl⟩
        · exact h.guarded other t hother

theorem Drafts.guarded_track (h : Drafts p m store calls s) {id : DocId} {t u : Tracked}
    (hfound : s.find? id = some t) (hsucceeds : t.Succeeds u) (other : DocId) (v : Tracked)
    (hother : (s.track id u).find? other = some v) :
    v.Guarded (m.find? other) ∧ (v.status = .unchanged → v = .ofLoaded (m.find? other)) := by
  rw [find?_track] at hother
  split at hother
  · rename_i hsame
    cases hother
    subst hsame
    obtain ⟨hguarded, hunchanged⟩ := h.guarded other t hfound
    refine ⟨hsucceeds.guarded hguarded, fun hstatus => ?_⟩
    obtain rfl := hsucceeds.unchanged hstatus
    exact hunchanged hstatus
  · exact h.guarded other v hother

theorem Drafts.revise (h : Drafts p m store calls s) (hplain : e.IsPlain)
    (hadds : e.isAddition = false) {t : Tracked} (hfound : s.find? e.id = some t)
    (now : Instant) :
    ∃ u, e.revise now t = .ok (u, []) ∧ Drafts (p.apply e) m store calls (s.track e.id u) := by
  obtain ⟨body, halter, hshows⟩ := h.shows.apply hplain hadds now
  obtain ⟨revised, hrevise, hagrees⟩ := Edit.agrees_revise hadds now t
  have hseen : s.seen m e.id = t := by simp [seen, hfound]
  rw [hseen] at halter
  rw [halter] at hagrees
  obtain ⟨u, rfl, hbecomes⟩ := hagrees.of_altered
  refine ⟨u, hrevise, h.tallies.track_of_ne (Edit.collection_ne_of_not_addition hadds) u,
    hshows.congr fun id _ => ?_, h.guarded_track hfound hbecomes.toSucceeds, h.deferred⟩
  rw [seen_track, ← hbecomes.body]
  unfold Plain.revised
  split <;> rfl

/-- A removal does not need to look at the document. -/
theorem Drafts.remove (h : Drafts p m store calls s) (hplain : e.IsPlain) (hremoval : e.isRemoval)
    (hfound : s.find? e.id = none) :
    Drafts (p.apply e) m store calls (s.track e.id Tracked.unasked.drop) := by
  have hadds := Edit.isAddition_of_isRemoval hremoval
  obtain ⟨body, halter, hshows⟩ := h.shows.apply hplain hadds .origin
  obtain rfl : none = body := by
    cases e with
    | removeSet | removeHash => exact Except.ok.inj halter
    | _ => cases hremoval
  refine ⟨h.tallies.track_of_ne (Edit.collection_ne_of_not_addition hadds) _,
    hshows.congr fun id _ => ?_, fun other v hother => ?_, h.deferred⟩
  · rw [seen_track]
    unfold Plain.revised
    split <;> rfl
  · rw [find?_track] at hother
    split at hother
    · cases hother
      exact ⟨Tracked.guarded_unasked_drop _, fun hstatus => nomatch hstatus⟩
    · exact h.guarded other v hother

theorem Drafts.add (h : Drafts p m store calls s) (hadds : e.isAddition) {t u : Tracked}
    {writes : List Write} (hfound : s.find? e.id = some t)
    (hrevise : e.revise now t = .ok (u, writes)) :
    Drafts (p.apply e) m store (calls ++ e.additions) (s.amend e.id u writes) := by
  obtain ⟨hsucceeds, hwrites⟩ := Edit.succeeds_of_revise hrevise
  have hguarded := h.guarded_track hfound hsucceeds
  cases e with
  | addToCounter key delta length =>
      have hadd : ((s.find? (Document.idFor Counter key)).getD .unasked).add
          (Document.idFor Counter key) delta (length.map now.expiresIn) = .ok (u, writes) := by
        rw [show s.find? (Document.idFor Counter key) = some t from hfound]
        exact hrevise
      refine ⟨h.tallies.amend hadd, ?_, hguarded, ?_⟩
      · have hkept : (p.apply (.addToCounter key delta length)).Shows
            fun id => (s.seen m id).body? :=
          ⟨h.shows.set, h.shows.finite, h.shows.list, h.shows.hash⟩
        refine hkept.congr fun id hid => ?_
        change ((s.track (Document.idFor Counter key) u).seen m id).body? = _
        rw [seen_track, if_neg fun hsame : id = _ => hid (hsame ▸ rfl)]
      · intro w hw
        rcases List.mem_append.mp hw with hold | hnew
        · exact h.deferred w hold
        · obtain ⟨_, _, _, rfl⟩ := hwrites w hnew
          rfl
  | _ => cases hadds

/-- An edit that is no addition goes well, whether the session has looked at its document or not. -/
theorem Drafts.alter (h : Drafts p m store calls s) (hplain : e.IsPlain)
    (hadds : e.isAddition = false) (now : Instant) :
    (e.act now m s).1 = .ok () ∧ Drafts (p.apply e) m store calls (e.act now m s).2 := by
  by_cases hblind : e.isRemoval ∧ s.find? e.id = none
  · obtain ⟨hremoval, hfound⟩ := hblind
    have hact := Edit.act_of_ok (e.revise_of_isRemoval hremoval now (e.sight m s))
    rw [show e.sight m s = .unasked by simp [Edit.sight, hremoval, hfound], amend_nil] at hact
    rw [hact]
    exact ⟨rfl, h.remove hplain hremoval hfound⟩
  · have hsight : e.sight m s = s.seen m e.id := by
      cases hremoval : e.isRemoval with
      | false => simp [Edit.sight, hremoval]
      | true =>
          obtain ⟨t, hfound⟩ := Option.ne_none_iff_exists'.mp fun hnone => hblind ⟨hremoval, hnone⟩
          simp [Edit.sight, hremoval, seen, hfound]
    -- The edit acts as on a session that has looked at the document before.
    obtain ⟨u, hrevise, hdrafts⟩ := (h.look e.id).revise hplain hadds
      (s.find?_track_self e.id (s.seen m e.id)) now
    rw [Edit.act_of_ok (hsight ▸ hrevise), amend_nil]
    rw [track_track] at hdrafts
    exact ⟨rfl, hdrafts⟩

theorem Drafts.act (h : Drafts p m store calls s) (hplain : e.IsPlain) (now : Instant) :
    if (e.act now m s).1.isOk then
      Drafts (p.apply e) m store (calls ++ e.additions) (e.act now m s).2
    else Drafts p m store calls (e.act now m s).2 := by
  cases hadds : e.isAddition with
  | false =>
      obtain ⟨hok, hdrafts⟩ := h.alter hplain hadds now
      rw [hok, Edit.additions_of_not_addition hadds, List.append_nil]
      exact hdrafts
  | true =>
      have hsight : e.sight m s = s.seen m e.id := by
        cases e with
        | addToCounter => rfl
        | _ => cases hadds
      have hlook := h.look e.id
      cases hrevise : e.revise now (s.seen m e.id) with
      | error failure =>
          rw [Edit.act_of_error (hsight ▸ hrevise), hsight]
          exact hlook
      | ok revised =>
          obtain ⟨u, writes⟩ := revised
          have hdrafts := hlook.add hadds (s.find?_track_self e.id (s.seen m e.id)) hrevise
          rw [amend_track] at hdrafts
          rw [Edit.act_of_ok (hsight ▸ hrevise)]
          exact hdrafts

theorem Drafts.commit (h : Drafts p m store calls s) (hcommit : m.commit s.batch = .ok next) :
    (p.Shows fun id => (next.find? id).map (·.body)) ∧
      ∀ key total, Carries total (m.find? (Document.idFor Counter key)) →
        Carries (total + gain key calls) (next.find? (Document.idFor Counter key)) := by
  refine ⟨h.shows.congr fun id hid => ?_, fun key total hcarries =>
    h.tallies.carries hcommit hcarries⟩
  have hrewrites := rewrites_of_commit h.tallies.distinct hcommit id
  have hdeferred : (s.deferred.filter fun w => w.id = id) = [] :=
    List.filter_eq_nil_iff.mpr fun w hw hsame =>
      hid (of_decide_eq_true hsame ▸ h.deferred w hw)
  rw [hdeferred, List.append_nil, h.tallies.optimistic] at hrewrites
  unfold seen
  cases hfound : s.find? id with
  | none =>
      rw [hfound] at hrewrites
      rw [Memory.rewrites_nil hrewrites]
      change _ = (Tracked.ofLoaded (m.find? id)).body?
      cases m.find? id <;> rfl
  | some t =>
      rw [hfound] at hrewrites
      obtain ⟨hguarded, hunchanged⟩ := h.guarded id t hfound
      exact (Tracked.written hguarded hunchanged hrewrites).1

end Session

end Jobyard
