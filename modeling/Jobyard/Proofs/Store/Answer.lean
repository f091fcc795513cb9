import Jobyard.Proofs.Store.Version
import Jobyard.Program.Request

/-!
Calls of a store in memory: what each answers and leaves behind, which documents it touches, and
which of them it removes. A call that leaves a document in place either does not touch it or raises
its version.
-/

namespace Jobyard

namespace Memory

def answer (m : Memory) : (call : StoreCall) → Except StoreError call.Answer × Memory
  | .setup => (.ok (), m)
  | .destroy => (.ok (), m.clear)
  | .load ids => (.ok (m.load ids), m)
  | .query q => (m.query q, m)
  | .count q => (m.count q, m)
  | .commit batch =>
    match m.commit batch with
    | .ok next => (.ok (), next)
    | .error e => (.error e, m)
  | .purge now limit => (.ok (m.purge now limit).2, (m.purge now limit).1)

def after (m : Memory) (call : StoreCall) : Memory := (m.answer call).2

theorem after_commit_of_ok {m next : Memory} {batch : Batch} (h : m.commit batch = .ok next) :
    m.after (.commit batch) = next := by
  simp only [after, answer, h]

theorem after_commit_of_error {m : Memory} {batch : Batch} {e : StoreError}
    (h : m.commit batch = .error e) : m.after (.commit batch) = m := by
  simp only [after, answer, h]

theorem commit_eq_ok_of_isOk {m : Memory} {batch : Batch} (h : (m.commit batch).isOk) :
    m.commit batch = .ok (m.after (.commit batch)) := by
  cases hcommit : m.commit batch with
  | ok next => rw [after_commit_of_ok hcommit]
  | error e =>
      rw [hcommit] at h
      cases h

theorem isOk_commit_of_answer {m : Memory} {batch : Batch}
    (h : (m.answer (.commit batch)).1 = .ok ()) : (m.commit batch).isOk := by
  cases hcommit : m.commit batch with
  | ok next => rfl
  | error e => simp [answer, hcommit] at h

def Keyed (m : Memory) : Prop := ∀ id d, m.find? id = some d → d.id = id

theorem keyed_empty : empty.Keyed := by
  intro id d h
  cases h

theorem Keyed.write {m next : Memory} {w : Write} (hkeyed : m.Keyed) (h : m.write w = .ok next) :
    next.Keyed := by
  obtain ⟨document, houtcome, hfound, hothers⟩ := write_eq_ok h
  intro id d hd
  by_cases hid : id = w.id
  · subst hid
    rw [hfound] at hd
    subst hd
    cases hcurrent : m.find? w.id with
    | none =>
        rw [hcurrent] at houtcome
        rcases outcome_none houtcome with ⟨_, hnone, _⟩ | ⟨_, made, hmade, hi, _⟩
        · cases hnone
        · cases hmade
          exact hi
    | some current =>
        rw [hcurrent] at houtcome
        rcases (outcome_some houtcome).2 with ⟨_, hnone⟩ | ⟨_, made, hmade, hi, _⟩
        · cases hnone
        · cases hmade
          exact hi.trans (hkeyed w.id current hcurrent)
  · exact hkeyed id d ((hothers id hid).symm.trans hd)

theorem Keyed.commit {m next : Memory} {batch : Batch} (hkeyed : m.Keyed)
    (h : m.commit batch = .ok next) : next.Keyed := by
  induction batch generalizing m with
  | nil =>
      rw [commit_nil] at h
      cases h
      exact hkeyed
  | cons w rest ih =>
      rw [commit_cons] at h
      obtain ⟨middle, hwrite, hrest⟩ := bind_eq_ok.mp h
      exact ih (hkeyed.write hwrite) hrest

theorem find?_purge (m : Memory) (now : Instant) (limit : Nat) (id : DocId) :
    (m.purge now limit).1.find? id = none ∨ (m.purge now limit).1.find? id = m.find? id := by
  change (List.foldl Dict.erase m.documents _).find? id = none ∨ _
  rw [Dict.find?_foldl_erase]
  split
  · exact .inl rfl
  · rename_i hkept
    refine .inr ?_
    change (List.foldl Dict.erase m.documents _).find? id = _
    rw [Dict.find?_foldl_erase, if_neg hkept]
    rfl

theorem find?_purge_of_unexpiring {m : Memory} (hkeyed : m.Keyed) {id : DocId} {d : Stored}
    (hd : m.find? id = some d) (hexpiry : d.expiresAt = none) (now : Instant) (limit : Nat) :
    (m.purge now limit).1.find? id = some d := by
  change (List.foldl Dict.erase m.documents _).find? id = some d
  rw [Dict.find?_foldl_erase, if_neg]
  · exact hd
  · intro hmem
    obtain ⟨other, hother, hid⟩ := List.mem_map.mp hmem
    obtain ⟨hvalue, hexpired⟩ := List.mem_filter.mp (List.mem_of_mem_take hother)
    obtain ⟨key, hkey⟩ := Dict.mem_values_iff.mp hvalue
    have hsame : other = d := by
      have hown : other.id = key := hkeyed key other hkey
      rw [← hown, hid] at hkey
      exact Option.some.inj (hkey.symm.trans hd)
    rw [hsame, isExpired, hexpiry] at hexpired
    cases hexpired

theorem Keyed.after {m : Memory} (hkeyed : m.Keyed) (call : StoreCall) : (m.after call).Keyed := by
  cases call with
  | setup => exact hkeyed
  | destroy =>
      intro id d h
      cases h
  | load ids => exact hkeyed
  | query q => exact hkeyed
  | count q => exact hkeyed
  | commit batch =>
      cases h : m.commit batch with
      | error e => rwa [after_commit_of_error h]
      | ok next =>
          rw [after_commit_of_ok h]
          exact hkeyed.commit h
  | purge now limit =>
      intro id d h
      rcases m.find?_purge now limit id with hnone | hsame
      · exact absurd (hnone.symm.trans h) (by simp)
      · exact hkeyed id d (hsame.symm.trans h)

theorem mem_zip_load {m : Memory} {ids : List DocId} {id : DocId} {document : Option Stored}
    (h : (id, document) ∈ ids.zip (m.load ids)) : document = m.find? id := by
  induction ids with
  | nil => cases h
  | cons first rest ih =>
      rcases List.mem_cons.mp h with hfirst | hrest
      · cases hfirst
        rfl
      · exact ih hrest

theorem mem_accepted_iff {m : Memory} (hkeyed : m.Keyed) {q : Query} {d : Stored} :
    d ∈ m.accepted q ↔ m.find? d.id = some d ∧ q.accepts d := by
  unfold accepted
  rw [List.mem_filter, Dict.mem_values_iff]
  constructor
  · rintro ⟨⟨key, hkey⟩, haccepts⟩
    have hown : d.id = key := hkeyed key d hkey
    exact ⟨hown ▸ hkey, haccepts⟩
  · rintro ⟨hfound, haccepts⟩
    exact ⟨⟨d.id, hfound⟩, haccepts⟩

theorem mem_of_query {m : Memory} {q : Query} {found : List Stored} {d : Stored}
    (hkeyed : m.Keyed) (h : m.query q = .ok found) (hd : d ∈ found) :
    m.find? d.id = some d ∧ q.accepts d := by
  obtain ⟨_, _, hfound⟩ := bind_eq_ok.mp h
  cases hfound
  have hsorted : d ∈ (m.accepted q).mergeSort q.comesFirst := by
    unfold Query.finish at hd
    split at hd
    · exact List.mem_of_mem_drop hd
    · exact List.mem_of_mem_drop (List.mem_of_mem_take hd)
  exact (mem_accepted_iff hkeyed).mp ((List.mergeSort_perm _ _).mem_iff.mp hsorted)

def Touches (m : Memory) (id : DocId) : StoreCall → Prop
  | .commit batch => (m.commit batch).isOk ∧ ∃ w ∈ batch, w.id = id
  | .purge now limit => (m.find? id).isSome ∧ ((m.purge now limit).1.find? id).isNone
  | .destroy => (m.find? id).isSome
  | _ => False

/-- The call takes a document away, if only to create it anew in the same batch. -/
def Removes (m : Memory) (id : DocId) : StoreCall → Prop
  | .commit batch => (m.commit batch).isOk ∧ ∃ w ∈ batch, w.id = id ∧ w.isDelete
  | call => m.Touches id call

instance (m : Memory) (id : DocId) : (call : StoreCall) → Decidable (m.Touches id call)
  | .commit batch => inferInstanceAs (Decidable (_ ∧ ∃ w ∈ batch, w.id = id))
  | .purge .. => inferInstanceAs (Decidable (_ ∧ _))
  | .destroy => inferInstanceAs (Decidable (_ = true))
  | .setup => inferInstanceAs (Decidable False)
  | .load _ => inferInstanceAs (Decidable False)
  | .query _ => inferInstanceAs (Decidable False)
  | .count _ => inferInstanceAs (Decidable False)

instance (m : Memory) (id : DocId) : (call : StoreCall) → Decidable (m.Removes id call)
  | .commit batch => inferInstanceAs (Decidable (_ ∧ ∃ w ∈ batch, w.id = id ∧ w.isDelete))
  | .purge now limit => inferInstanceAs (Decidable (m.Touches id (.purge now limit)))
  | .destroy => inferInstanceAs (Decidable (m.Touches id .destroy))
  | .setup => inferInstanceAs (Decidable False)
  | .load _ => inferInstanceAs (Decidable False)
  | .query _ => inferInstanceAs (Decidable False)
  | .count _ => inferInstanceAs (Decidable False)

theorem Removes.touches {m : Memory} {id : DocId} {call : StoreCall} (h : m.Removes id call) :
    m.Touches id call := by
  cases call with
  | commit batch =>
      obtain ⟨hok, w, hmem, hid, _⟩ := h
      exact ⟨hok, w, hmem, hid⟩
  | _ => exact h

theorem find?_after_of_untouched {m : Memory} {id : DocId} {call : StoreCall}
    (h : ¬ m.Touches id call) : (m.after call).find? id = m.find? id := by
  cases call with
  | destroy =>
      cases hfound : m.find? id with
      | none => rfl
      | some d => exact absurd (by simp [Touches, hfound]) h
  | commit batch =>
      cases hcommit : m.commit batch with
      | error e => rw [after_commit_of_error hcommit]
      | ok next =>
          rw [after_commit_of_ok hcommit]
          apply find?_commit_of_forall_ne hcommit
          intro w hw hid
          exact h ⟨by simp [hcommit, Except.isOk, Except.toBool], w, hw, hid⟩
  | purge now limit =>
      rcases m.find?_purge now limit id with hnone | hsame
      · cases hfound : m.find? id with
        | none => exact hnone
        | some d => exact absurd (by simp [Touches, hfound, hnone]) h
      · exact hsame
  | _ => rfl

/-- A call that does not remove a document leaves it with its number, at a version that is higher
exactly when the call touched it. -/
theorem find?_after_of_kept {m : Memory} {id : DocId} {call : StoreCall} {d : Stored}
    (hkept : ¬ m.Removes id call) (hd : m.find? id = some d) :
    ∃ kept, (m.after call).find? id = some kept ∧ kept.sequence = d.sequence ∧
      d.etag ≤ kept.etag ∧ (m.Touches id call ↔ d.etag < kept.etag) := by
  by_cases htouched : m.Touches id call
  · cases call with
    | commit batch =>
        obtain ⟨hok, w, hw, hid⟩ := htouched
        have hcommit := commit_eq_ok_of_isOk hok
        have hstays : ∀ other ∈ batch, other.id = id → other.isDelete = false := by
          intro other hother hsame
          cases hdelete : other.isDelete with
          | false => rfl
          | true => exact absurd ⟨hok, other, hother, hsame, hdelete⟩ hkept
        obtain ⟨kept, hfound, _, hsequence, hetag⟩ := find?_commit_of_kept hcommit hd hstays
        have hcount : 0 < batch.countP fun w => w.id = id :=
          List.countP_pos_iff.mpr ⟨w, hw, by simp [hid]⟩
        exact ⟨kept, hfound, hsequence, by omega, ⟨fun _ => by omega, fun _ => ⟨hok, w, hw, hid⟩⟩⟩
    | _ => exact absurd htouched hkept
  · refine ⟨d, (find?_after_of_untouched htouched).trans hd, rfl, Nat.le_refl _, ?_⟩
    exact ⟨fun h => absurd h htouched, fun h => absurd h (Nat.lt_irrefl _)⟩

end Memory

end Jobyard
