import Jobyard.Proofs.Dict
import Jobyard.Proofs.Store.Write

/-!
Versions of documents. The number of its creation and the version of its last write tell one state
of a document from every other: a call that leaves a document in place either does not touch it or
raises its version, and a document that comes back after its removal has a new number.
-/

namespace Jobyard

namespace Write

def isDelete : Write → Bool
  | .delete .. => true
  | _ => false

def demand : Write → Option Expected
  | .put _ _ _ expected => some expected
  | .delete _ expected => some expected
  | .increment .. => none

end Write

/-- The first write of a batch that addresses a document demands a version of it. -/
def Batch.Guards (batch : Batch) (id : DocId) (etag : Nat) : Prop :=
  (batch.find? fun w => w.id = id).bind Write.demand = some (.exact etag)

instance (batch : Batch) (id : DocId) (etag : Nat) : Decidable (Batch.Guards batch id etag) :=
  inferInstanceAs (Decidable (_ = _))

namespace Memory

/-- A document seen earlier is gone, or was written since, or is the one that is there. -/
def Dates (m : Memory) (id : DocId) (d : Stored) : Prop :=
  ∀ current, m.find? id = some current → d.etag < current.etag ∨ d = current

theorem Dates.eq_of_etag {m : Memory} {id : DocId} {d current : Stored} (h : m.Dates id d)
    (hcurrent : m.find? id = some current) (hetag : current.etag = d.etag) : d = current := by
  rcases h current hcurrent with hlt | hsame
  · omega
  · exact hsame

theorem outcome_some {w : Write} {d : Stored} {lastSequence last : Nat} {document : Option Stored}
    (h : outcome w (some d) lastSequence = .ok (document, last)) :
    last = lastSequence ∧
      ((w.isDelete = true ∧ document = none) ∨
        (w.isDelete = false ∧ ∃ next, document = some next ∧ next.id = d.id ∧
          next.sequence = d.sequence ∧ next.etag = d.etag + 1)) := by
  cases w with
  | put id body expiresAt expected =>
      simp only [outcome] at h
      split at h
      · cases h
        exact ⟨rfl, .inr ⟨rfl, _, rfl, rfl, rfl, rfl⟩⟩
      · cases h
  | delete id expected =>
      simp only [outcome] at h
      split at h
      · cases h
        exact ⟨rfl, .inl ⟨rfl, rfl⟩⟩
      · cases h
  | increment id field delta expiresAt =>
      obtain ⟨body, _, hbody⟩ := bind_eq_ok.mp h
      cases hbody
      exact ⟨rfl, .inr ⟨rfl, _, rfl, rfl, rfl, rfl⟩⟩

theorem outcome_none {w : Write} {lastSequence last : Nat} {document : Option Stored}
    (h : outcome w none lastSequence = .ok (document, last)) :
    (w.isDelete = true ∧ document = none ∧ last = lastSequence) ∨
      (w.isDelete = false ∧ ∃ next, document = some next ∧ next.id = w.id ∧ next.etag = 1 ∧
        next.sequence = lastSequence + 1 ∧ last = lastSequence + 1) := by
  cases w with
  | put id body expiresAt expected =>
      simp only [outcome] at h
      split at h
      · cases h
        exact .inr ⟨rfl, _, rfl, rfl, rfl, rfl, rfl⟩
      · cases h
  | delete id expected =>
      simp only [outcome] at h
      split at h
      · cases h
        exact .inl ⟨rfl, rfl, rfl⟩
      · cases h
  | increment id field delta expiresAt =>
      obtain ⟨body, _, hbody⟩ := bind_eq_ok.mp h
      cases hbody
      exact .inr ⟨rfl, _, rfl, rfl, rfl, rfl, rfl⟩

theorem outcome_demand {w : Write} {current : Option Stored} {lastSequence : Nat}
    {result : Option Stored × Nat} {expected : Expected}
    (h : outcome w current lastSequence = .ok result) (hdemand : w.demand = some expected) :
    expected.accepts (current.map (·.etag)) = true := by
  cases w with
  | put id body expiresAt other =>
      cases hdemand
      simp only [outcome] at h
      split at h
      · assumption
      · cases h
  | delete id other =>
      cases hdemand
      simp only [outcome] at h
      split at h
      · assumption
      · cases h
  | increment id field delta expiresAt => cases hdemand

theorem find?_commit_of_kept {m next : Memory} {batch : Batch} {id : DocId} {d : Stored}
    (h : m.commit batch = .ok next) (hd : m.find? id = some d)
    (hkept : ∀ w ∈ batch, w.id = id → w.isDelete = false) :
    ∃ kept, next.find? id = some kept ∧ kept.id = d.id ∧ kept.sequence = d.sequence ∧
      kept.etag = d.etag + batch.countP fun w => w.id = id := by
  induction batch generalizing m d with
  | nil =>
      rw [commit_nil] at h
      cases h
      exact ⟨d, hd, rfl, rfl, rfl⟩
  | cons w rest ih =>
      rw [commit_cons] at h
      obtain ⟨middle, hwrite, hrest⟩ := bind_eq_ok.mp h
      obtain ⟨document, houtcome, hfound, hothers⟩ := write_eq_ok hwrite
      have hkeptRest : ∀ other ∈ rest, other.id = id → other.isDelete = false :=
        fun other hother => hkept other (List.mem_cons_of_mem w hother)
      by_cases hid : w.id = id
      · subst hid
        rw [hd] at houtcome
        have hstays : w.isDelete = false := hkept w List.mem_cons_self rfl
        rcases (outcome_some houtcome).2 with ⟨hdelete, _⟩ | ⟨_, changed, rfl, hi, hs, he⟩
        · rw [hstays] at hdelete
          cases hdelete
        · obtain ⟨kept, hkeptFound, hki, hks, hke⟩ := ih hrest hfound hkeptRest
          refine ⟨kept, hkeptFound, hki.trans hi, hks.trans hs, ?_⟩
          rw [List.countP_cons_of_pos (by simp), hke, he]
          omega
      · rw [← hothers id (Ne.symm hid)] at hd
        obtain ⟨kept, hkeptFound, hki, hks, hke⟩ := ih hrest hd hkeptRest
        refine ⟨kept, hkeptFound, hki, hks, ?_⟩
        rw [List.countP_cons_of_neg (by simp [hid]), hke]

theorem etag_of_commit_guarded {m next : Memory} {batch : Batch} {id : DocId} {etag : Nat}
    (h : m.commit batch = .ok next) (hguard : Batch.Guards batch id etag) :
    ∃ d, m.find? id = some d ∧ d.etag = etag := by
  induction batch generalizing m with
  | nil => cases hguard
  | cons w rest ih =>
      rw [commit_cons] at h
      obtain ⟨middle, hwrite, hrest⟩ := bind_eq_ok.mp h
      obtain ⟨document, houtcome, _, hothers⟩ := write_eq_ok hwrite
      unfold Batch.Guards at hguard
      by_cases hid : w.id = id
      · rw [List.find?_cons_of_pos (by simp [hid])] at hguard
        have haccepted := outcome_demand houtcome hguard
        rw [hid] at haccepted
        cases hfound : m.find? id with
        | none =>
            rw [hfound] at haccepted
            cases haccepted
        | some d =>
            rw [hfound] at haccepted
            exact ⟨d, rfl, (beq_iff_eq.mp haccepted).symm⟩
      · rw [List.find?_cons_of_neg (by simp [hid])] at hguard
        obtain ⟨d, hfound, hetag⟩ := ih hrest hguard
        exact ⟨d, (hothers id (Ne.symm hid)).symm.trans hfound, hetag⟩

theorem guards_singleton {w : Write} {etag : Nat} (h : w.demand = some (.exact etag)) :
    Batch.Guards [w] w.id etag := by
  simpa [Batch.Guards] using h

theorem commit_put_exact {m next : Memory} {id : DocId} {body : Json}
    {expiresAt : Option Instant} {etag : Nat}
    (h : m.commit [.put id body expiresAt (.exact etag)] = .ok next) :
    ∃ d, m.find? id = some d ∧ d.etag = etag ∧
      next.find? id = some { d with body, etag := d.etag + 1, expiresAt } ∧
      ∀ other, other ≠ id → next.find? other = m.find? other := by
  obtain ⟨d, hfound, hetag⟩ := etag_of_commit_guarded h (guards_singleton rfl)
  rw [commit_singleton] at h
  obtain ⟨document, houtcome, hnext, hothers⟩ := write_eq_ok h
  refine ⟨d, hfound, hetag, ?_, hothers⟩
  rw [hfound] at houtcome
  simp only [outcome] at houtcome
  split at houtcome
  · obtain ⟨hdocument, _⟩ := Prod.mk.inj (Except.ok.inj houtcome)
    rw [← hdocument] at hnext
    exact hnext
  · cases houtcome

theorem commit_delete_exact {m next : Memory} {id : DocId} {etag : Nat}
    (h : m.commit [.delete id (.exact etag)] = .ok next) :
    ∃ d, m.find? id = some d ∧ d.etag = etag ∧ next.find? id = none ∧
      ∀ other, other ≠ id → next.find? other = m.find? other := by
  obtain ⟨d, hfound, hetag⟩ := etag_of_commit_guarded h (guards_singleton rfl)
  rw [commit_singleton] at h
  obtain ⟨document, houtcome, hnext, hothers⟩ := write_eq_ok h
  refine ⟨d, hfound, hetag, ?_, hothers⟩
  simp only [outcome] at houtcome
  split at houtcome
  · obtain ⟨hdocument, _⟩ := Prod.mk.inj (Except.ok.inj houtcome)
    rw [← hdocument] at hnext
    exact hnext
  · cases houtcome

theorem write_put_absent {m next : Memory} {id : DocId} {body : Json}
    {expiresAt : Option Instant} (h : m.write (.put id body expiresAt .absent) = .ok next) :
    m.find? id = none ∧
      (∃ d, next.find? id = some d ∧ d.body = body ∧ d.expiresAt = expiresAt) ∧
      ∀ other, other ≠ id → next.find? other = m.find? other := by
  obtain ⟨document, houtcome, hnext, hothers⟩ := write_eq_ok h
  cases hfound : m.find? id with
  | some d =>
      rw [show m.find? (Write.put id body expiresAt .absent).id = some d from hfound] at houtcome
      cases houtcome
  | none =>
      rw [show m.find? (Write.put id body expiresAt .absent).id = none from hfound] at houtcome
      obtain ⟨hdocument, _⟩ := Prod.mk.inj (Except.ok.inj houtcome)
      rw [← hdocument] at hnext
      exact ⟨rfl, ⟨_, hnext, rfl, rfl⟩, hothers⟩

end Memory

end Jobyard
