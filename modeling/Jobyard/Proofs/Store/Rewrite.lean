import Jobyard.Proofs.Store.Version

/-!
Batches document by document. What a committed batch makes of one document is what the writes that
address it make of it, one after the other; and a batch that demands something of different
documents goes well if each demand is met by the store as it is.
-/

namespace Jobyard.Memory

/-- Writes that address one document lead from one state of it to another. -/
inductive Rewrites : Batch → Option Stored → Option Stored → Prop
  | nil (d : Option Stored) : Rewrites [] d d
  | cons {w : Write} {rest : Batch} {current middle final : Option Stored} {before after : Nat}
      (first : outcome w current before = .ok (middle, after))
      (more : Rewrites rest middle final) : Rewrites (w :: rest) current final

theorem rewrites_of_commit {m next : Memory} {batch : Batch} (h : m.commit batch = .ok next)
    (id : DocId) :
    Rewrites (batch.filter fun w => w.id = id) (m.find? id) (next.find? id) := by
  induction batch generalizing m with
  | nil =>
      rw [commit_nil] at h
      cases h
      exact .nil _
  | cons w rest ih =>
      rw [commit_cons] at h
      obtain ⟨middle, hwrite, hrest⟩ := bind_eq_ok.mp h
      obtain ⟨document, houtcome, hfound, hothers⟩ := write_eq_ok hwrite
      by_cases hid : w.id = id
      · subst hid
        rw [List.filter_cons_of_pos (by simp)]
        subst hfound
        exact .cons houtcome (ih hrest)
      · rw [List.filter_cons_of_neg (by simp [hid]), ← hothers id (Ne.symm hid)]
        exact ih hrest

theorem rewrites_nil {current final : Option Stored} (h : Rewrites [] current final) :
    final = current := by
  cases h
  rfl

theorem rewrites_singleton {w : Write} {current final : Option Stored}
    (h : Rewrites [w] current final) :
    ∃ before after, outcome w current before = .ok (final, after) := by
  cases h with
  | cons first more =>
      rw [rewrites_nil more]
      exact ⟨_, _, first⟩

theorem rewrites_append {first second : Batch} {current final : Option Stored}
    (h : Rewrites (first ++ second) current final) :
    ∃ middle, Rewrites first current middle ∧ Rewrites second middle final := by
  induction first generalizing current with
  | nil => exact ⟨current, .nil current, h⟩
  | cons w rest ih =>
      cases h with
      | cons hfirst hmore =>
          obtain ⟨middle, hrest, hsecond⟩ := ih hmore
          exact ⟨middle, .cons hfirst hrest, hsecond⟩

theorem outcome_put {id : DocId} {body : Json} {expiresAt : Option Instant} {expected : Expected}
    {current document : Option Stored} {before after : Nat}
    (h : outcome (.put id body expiresAt expected) current before = .ok (document, after)) :
    ∃ d, document = some d ∧ d.body = body ∧ d.expiresAt = expiresAt := by
  simp only [outcome] at h
  split at h
  · cases current <;> cases h <;> exact ⟨_, rfl, rfl, rfl⟩
  · cases h

theorem outcome_delete {id : DocId} {expected : Expected} {current document : Option Stored}
    {before after : Nat}
    (h : outcome (.delete id expected) current before = .ok (document, after)) :
    document = none := by
  simp only [outcome] at h
  split at h
  · cases h
    rfl
  · cases h

theorem outcome_increment {id : DocId} {field : String} {delta : Int}
    {expiresAt : Option Instant} {current document : Option Stored} {before after : Nat}
    (h : outcome (.increment id field delta expiresAt) current before = .ok (document, after)) :
    ∃ d, document = some d ∧
      addTo ((current.map (·.body)).getD (.obj [])) field delta = .ok d.body ∧
      d.expiresAt = (expiresAt <|> current.bind (·.expiresAt)) := by
  cases current with
  | some d =>
      obtain ⟨body, hadded, hbody⟩ := bind_eq_ok.mp h
      cases hbody
      exact ⟨_, rfl, hadded, rfl⟩
  | none =>
      obtain ⟨body, hadded, hbody⟩ := bind_eq_ok.mp h
      cases hbody
      exact ⟨_, rfl, hadded, by cases expiresAt <;> rfl⟩

def Meets (m : Memory) (w : Write) : Prop :=
  ∀ expected, w.demand = some expected → expected.accepts ((m.find? w.id).map (·.etag)) = true

theorem outcome_of_accepts {w : Write} {current : Option Stored} {expected : Expected}
    (hdemand : w.demand = some expected)
    (haccepts : expected.accepts (current.map (·.etag)) = true) (lastSequence : Nat) :
    ∃ result, outcome w current lastSequence = .ok result := by
  cases w with
  | put id body expiresAt other =>
      cases hdemand
      cases current <;> simp only [outcome, if_pos haccepts] <;> exact ⟨_, rfl⟩
  | delete id other =>
      cases hdemand
      exact ⟨_, if_pos haccepts⟩
  | increment id field delta expiresAt => cases hdemand

theorem outcome_of_refused {w : Write} {current : Option Stored} {expected : Expected}
    (hdemand : w.demand = some expected)
    (hrefused : ¬ expected.accepts (current.map (·.etag)) = true) (lastSequence : Nat) :
    ∃ e, outcome w current lastSequence = .error e ∧ e.isRetryable := by
  cases w with
  | put id body expiresAt other =>
      cases hdemand
      exact ⟨_, if_neg hrefused, rfl⟩
  | delete id other =>
      cases hdemand
      exact ⟨_, if_neg hrefused, rfl⟩
  | increment id field delta expiresAt => cases hdemand

theorem write_of_meets {m : Memory} {w : Write} (hdemand : w.demand.isSome) (hmeets : m.Meets w) :
    ∃ next, m.write w = .ok next := by
  obtain ⟨expected, hexpected⟩ := Option.isSome_iff_exists.mp hdemand
  obtain ⟨⟨document, lastSequence⟩, houtcome⟩ :=
    outcome_of_accepts hexpected (hmeets expected hexpected) m.lastSequence
  unfold write
  rw [houtcome]
  exact ⟨_, rfl⟩

theorem write_of_not_meets {m : Memory} {w : Write} (hmeets : ¬ m.Meets w) :
    ∃ e, m.write w = .error e ∧ e.isRetryable := by
  obtain ⟨expected, hmeets⟩ := Classical.not_forall.mp hmeets
  obtain ⟨hexpected, hrefused⟩ := Classical.not_imp.mp hmeets
  obtain ⟨e, houtcome, hretryable⟩ := outcome_of_refused hexpected hrefused m.lastSequence
  unfold write
  rw [houtcome]
  exact ⟨e, rfl, hretryable⟩

theorem meets_congr {m next : Memory} {w : Write} (h : next.find? w.id = m.find? w.id) :
    next.Meets w ↔ m.Meets w := by
  unfold Meets
  rw [h]

/-- Writes of different documents, each with a demand, go well together if each demand is met,
and fail with a lost race otherwise. -/
theorem commit_demanding {batch : Batch} (m : Memory) (hdemand : ∀ w ∈ batch, w.demand.isSome)
    (hnodup : (batch.map Write.id).Nodup) :
    ((∀ w ∈ batch, m.Meets w) ∧ ∃ next, m.commit batch = .ok next) ∨
      (∃ w ∈ batch, ¬ m.Meets w) ∧ ∃ e, m.commit batch = .error e ∧ e.isRetryable := by
  induction batch generalizing m with
  | nil => exact .inl ⟨fun _ h => (nomatch h), m, commit_nil m⟩
  | cons w rest ih =>
      obtain ⟨hnew, hrest⟩ := List.nodup_cons.mp hnodup
      rw [commit_cons]
      by_cases hmeets : m.Meets w
      · obtain ⟨middle, hwrite⟩ := write_of_meets (hdemand w List.mem_cons_self) hmeets
        obtain ⟨_, _, _, hothers⟩ := write_eq_ok hwrite
        -- The first write leaves the documents of the others as they were.
        have hsame : ∀ other ∈ rest, (middle.Meets other ↔ m.Meets other) := by
          intro other hother
          apply meets_congr
          apply hothers
          intro heq
          exact hnew (heq ▸ List.mem_map_of_mem hother)
        rw [hwrite]
        rcases ih middle (fun other hother => hdemand other (List.mem_cons_of_mem w hother)) hrest
          with ⟨hall, hnext⟩ | ⟨⟨other, hother, hnot⟩, herror⟩
        · refine .inl ⟨fun other hother => ?_, hnext⟩
          rcases List.mem_cons.mp hother with rfl | hmore
          · exact hmeets
          · exact (hsame other hmore).mp (hall other hmore)
        · refine .inr ⟨⟨other, List.mem_cons_of_mem w hother, ?_⟩, herror⟩
          rwa [hsame other hother] at hnot
      · obtain ⟨e, hwrite, hretryable⟩ := write_of_not_meets hmeets
        rw [hwrite]
        exact .inr ⟨⟨w, List.mem_cons_self, hmeets⟩, e, rfl, hretryable⟩

theorem addTo_error {body : Json} {field : String} {delta : Int} {e : StoreError}
    (h : addTo body field delta = .error e) : e.isRetryable = false := by
  unfold addTo at h
  split at h
  · split at h
    · cases h
    · cases h
    · split at h
      · cases h
      · cases h
        rfl
  · cases h
    rfl

theorem outcome_undemanding {w : Write} {current : Option Stored} {lastSequence : Nat}
    {e : StoreError} (hdemand : w.demand = none) (h : outcome w current lastSequence = .error e) :
    e.isRetryable = false := by
  cases w with
  | put => cases hdemand
  | delete => cases hdemand
  | increment id field delta expiresAt =>
      cases current <;> rcases bind_eq_error.mp h with hadded | ⟨_, _, hok⟩
      · exact addTo_error hadded
      · cases hok
      · exact addTo_error hadded
      · cases hok

theorem commit_undemanding {batch : Batch} {m : Memory} {e : StoreError}
    (hdemand : ∀ w ∈ batch, w.demand = none) (h : m.commit batch = .error e) :
    e.isRetryable = false := by
  induction batch generalizing m with
  | nil =>
      rw [commit_nil] at h
      cases h
  | cons w rest ih =>
      rw [commit_cons] at h
      rcases bind_eq_error.mp h with hwrite | ⟨next, _, hrest⟩
      · rcases bind_eq_error.mp hwrite with houtcome | ⟨_, _, hok⟩
        · exact outcome_undemanding (hdemand w List.mem_cons_self) houtcome
        · cases hok
      · exact ih (fun other hother => hdemand other (List.mem_cons_of_mem w hother)) hrest

end Jobyard.Memory
