import Jobyard.Proofs.Transaction.Content

/-!
Where several edits of one document lead when the session in which they were done is committed. A
document that the session changed is written as the session holds it; a counter that the store has
is left to increments, which do one by one what the edits do.
-/

namespace Jobyard

namespace Tracked

variable {t : Tracked} {stored final : Option Stored} {id : DocId}

theorem written (hguarded : t.Guarded stored)
    (hunchanged : t.status = .unchanged → t = .ofLoaded stored)
    (h : Memory.Rewrites (t.write? true id).toList stored final) :
    final.map (·.body) = t.body? ∧ ∀ d, final = some d → d.expiresAt = t.expiresAt := by
  obtain ⟨hknown, hunknown, hfilled⟩ := hguarded
  obtain ⟨body, etag, known, expiresAt, status⟩ := t
  cases status with
  | unchanged =>
      have hsame := hunchanged rfl
      rw [Memory.rewrites_nil h, hsame]
      cases stored with
      | none => exact ⟨rfl, fun _ hd => nomatch hd⟩
      | some d =>
          refine ⟨rfl, fun other hother => ?_⟩
          cases hother
          rfl
  | dirty =>
      obtain ⟨content, hcontent⟩ := Option.isSome_iff_exists.mp (hfilled rfl)
      cases hcontent
      obtain ⟨_, _, houtcome⟩ := Memory.rewrites_singleton h
      obtain ⟨d, rfl, rfl, hexpiresAt⟩ := Memory.outcome_put houtcome
      refine ⟨rfl, fun other hother => ?_⟩
      cases hother
      exact hexpiresAt
  | deleted =>
      have hgone : final = none := by
        cases known with
        | false =>
            obtain ⟨_, _, houtcome⟩ := Memory.rewrites_singleton h
            exact Memory.outcome_delete houtcome
        | true =>
            have hetag : etag = stored.map (·.etag) := hknown rfl
            cases stored with
            | none =>
                cases hetag
                exact Memory.rewrites_nil h
            | some d =>
                cases hetag
                obtain ⟨_, _, houtcome⟩ := Memory.rewrites_singleton h
                exact Memory.outcome_delete houtcome
      subst hgone
      exact ⟨rfl, fun _ hd => nomatch hd⟩

theorem body?_ofLoaded (stored : Option Stored) :
    (stored.map Stored.content).map (·.body) = (ofLoaded stored).body? := by
  cases stored <;> rfl

theorem expiresAt_ofLoaded (stored : Option Stored) :
    (ofLoaded stored).expiresAt = (stored.map Stored.content).bind (·.expiresAt) := by
  cases stored <;> rfl

theorem Succeeds.unchanged {next : Tracked} (h : t.Succeeds next)
    (hstatus : next.status = .unchanged) : next = t := by
  rcases h.settled with hsame | hdeleted | ⟨hdirty, _⟩
  · exact hsame
  · rw [hdeleted] at hstatus
    cases hstatus
  · rw [hdirty] at hstatus
    cases hstatus

end Tracked

namespace Edit

variable {now : Instant} {id : DocId} {edits : List Edit} {t : Tracked} {writes : List Write}
  {stored final : Option Stored}

/-- The edits of one document lead to the content that a commit leaves in the store, except that
the expiry may be another one if the document was gone in between. -/
structure Reaches (now : Instant) (edits : List Edit) (stored final : Option Stored)
    (c : Option Content) : Prop where
  reached : applyAll now edits (stored.map Stored.content) = .ok c
  body : c.map (·.body) = final.map (·.body)
  expiry : ∀ content d, c = some content → final = some d →
    (content.expiresAt = d.expiresAt ↔ ¬ Revives now (stored.map Stored.content) edits)

theorem Parallel.reaches {c : Option Content}
    (h : Parallel now (stored.map Stored.content) edits t c)
    (hwritten : final.map (·.body) = t.body? ∧ ∀ d, final = some d → d.expiresAt = t.expiresAt) :
    Reaches now edits stored final c where
  reached := h.reached
  body := h.body.trans hwritten.1.symm
  expiry content d hc hd := by
    rw [hwritten.2 d hd]
    rcases h.present content hc with ⟨hsame, hrevives⟩ | ⟨hnone, hsome, hrevives⟩
    · exact ⟨fun _ => hrevives, fun _ => hsame⟩
    · refine ⟨fun hsame => ?_, fun hnot => absurd hrevives hnot⟩
      rw [← hsame, hnone] at hsome
      cases hsome

theorem reaches_of_stored_counter {d : Stored} (hne : edits ≠ [])
    (hadds : ∀ e ∈ edits, e.isAddition)
    (h : reviseAll now edits (.ofLoaded (some d)) = .ok (t, writes))
    (hrewrites : Memory.Rewrites ((t.write? true id).toList ++ writes) (some d) final) :
    ∃ c, Reaches now edits (some d) final c := by
  have hread : (Document.decode? d.body : Option Counter).isSome := by
    cases edits with
    | nil => exact absurd rfl hne
    | cons e rest =>
        obtain ⟨⟨next, first⟩, hrevise, _⟩ := bind_eq_ok.mp h
        obtain ⟨_, _, _, _, counter, _, _, hcounter⟩ :=
          increment_of_revise (hadds e List.mem_cons_self) rfl rfl hrevise
        exact Option.isSome_iff_exists.mpr ⟨counter, Document.read_some hcounter⟩
  cases reviseAll_stored_counter hadds rfl rfl h
  obtain ⟨middle, hfirst, hmore⟩ := Memory.rewrites_append hrewrites
  cases Memory.rewrites_nil hfirst
  obtain ⟨kept, rfl, hall⟩ :=
    applyAll_of_increments hadds rfl rfl (fun _ _ _ => hread) h hmore
  refine ⟨some kept.content, hall, rfl, fun content other hcontent hother => ?_⟩
  cases hcontent
  cases hother
  refine ⟨fun _ hrevives => ?_, fun _ => rfl⟩
  obtain ⟨before, after, rfl, _, hgone, _⟩ := hrevives
  cases isSome_of_additions (fun e he => hadds e (List.mem_append_left after he)) hgone

theorem succeeds_of_reviseAll {first : Tracked} (h : reviseAll now edits first = .ok (t, writes)) :
    first.Succeeds t := by
  induction edits generalizing first writes with
  | nil =>
      cases h
      exact Tracked.succeeds_refl t
  | cons e rest ih =>
      obtain ⟨⟨next, _⟩, hrevise, hmore⟩ := bind_eq_ok.mp h
      obtain ⟨⟨last, _⟩, hrest, hlast⟩ := bind_eq_ok.mp hmore
      cases hlast
      exact (succeeds_of_revise hrevise).1.trans (ih hrest)

theorem guarded_of_reviseAll (hne : edits ≠ [])
    (h : reviseAll now edits (opened stored edits) = .ok (t, writes)) :
    t.Guarded stored ∧ (t.status = .unchanged → t = .ofLoaded stored) := by
  cases edits with
  | nil => exact absurd rfl hne
  | cons e rest =>
      cases hremoval : e.isRemoval with
      | false =>
          have hsucceeds := succeeds_of_reviseAll h
          rw [opened, hremoval, if_neg Bool.false_ne_true] at hsucceeds
          exact ⟨hsucceeds.guarded (Tracked.guarded_ofLoaded stored), hsucceeds.unchanged⟩
      | true =>
          rw [opened, hremoval, if_pos rfl] at h
          obtain ⟨⟨next, _⟩, hrevise, hmore⟩ := bind_eq_ok.mp h
          obtain ⟨⟨last, _⟩, hrest, hlast⟩ := bind_eq_ok.mp hmore
          cases hlast
          rw [revise_of_isRemoval hremoval] at hrevise
          cases hrevise
          have hsucceeds := succeeds_of_reviseAll hrest
          have hguarded := hsucceeds.guarded (Tracked.guarded_unasked_drop stored)
          exact ⟨hguarded, fun hsame => absurd hsame (hguarded.unknown hsucceeds.known).2⟩

/-- A document that was deleted before the store was asked for it does not come back, since then it
would be expected to be missing. -/
theorem body?_of_removed {d : Stored} (hguarded : t.Guarded (some d)) (hunknown : t.known = false)
    (hrewrites : Memory.Rewrites (t.write? true id).toList (some d) final) : t.body? = none := by
  obtain ⟨hetag, hstatus⟩ := hguarded.unknown hunknown
  obtain ⟨body, etag, known, expiresAt, status⟩ := t
  cases hetag
  cases status with
  | unchanged => exact absurd rfl hstatus
  | deleted => rfl
  | dirty =>
      cases body with
      | none => rfl
      | some body =>
          obtain ⟨_, _, houtcome⟩ := Memory.rewrites_singleton hrewrites
          exact nomatch Memory.outcome_demand houtcome rfl

theorem reaches_of_removed {e : Edit} {rest : List Edit} {d : Stored} (hremoval : e.isRemoval)
    (hplain : ∀ other ∈ e :: rest, other.isAddition = false)
    (h : reviseAll now (e :: rest) .unasked = .ok (t, writes)) (hguarded : t.Guarded (some d))
    (hwritten : final.map (·.body) = t.body? ∧ ∀ d, final = some d → d.expiresAt = t.expiresAt)
    (hrewrites : Memory.Rewrites (t.write? true id).toList (some d) final) :
    ∃ c, Reaches now (e :: rest) (some d) final c := by
  have hgone := body?_of_removed hguarded (succeeds_of_reviseAll h).known hrewrites
  have hfirst : ∀ c, e.apply now c = .ok none := by
    intro c
    cases e with
    | removeSet | removeHash => rfl
    | _ => cases hremoval
  obtain ⟨_, hsettles⟩ := settlesAll_of_reviseAll (.inl hplain) h
  obtain ⟨c, hall, hbody⟩ := hsettles.applyAll (c := none) rfl
  refine ⟨c, ?_, hbody.trans hwritten.1.symm, fun content other hcontent => ?_⟩
  · -- The removal takes away whatever there was.
    rw [applyAll_cons, hfirst] at hall ⊢
    exact hall
  · rw [hcontent, hgone] at hbody
    cases hbody

theorem reaches_of_settlesAll {first : Tracked} (hids : ∀ e ∈ edits, e.id = id)
    (hbody : (stored.map Stored.content).map (·.body) = first.body?)
    (hexpiresAt : first.expiresAt = (stored.map Stored.content).bind (·.expiresAt))
    (hsettles : SettlesAll now edits first t)
    (hwritten : final.map (·.body) = t.body? ∧ ∀ d, final = some d → d.expiresAt = t.expiresAt) :
    ∃ c, Reaches now edits stored final c := by
  have hjob : stored.map Stored.content = none → (∃ jobId, id = Step.jobDocument jobId) →
      first.expiresAt = none := by
    intro hnone _
    rw [hexpiresAt, hnone]
    rfl
  obtain ⟨c, hparallel⟩ := (parallel_start hbody hexpiresAt).settlesAll hsettles hids hjob
  exact ⟨c, hparallel.reaches hwritten⟩

theorem isAddition_eq (e : Edit) :
    e.isAddition = decide (e.id.collection = Document.collection Counter) := by
  cases e <;> rfl

theorem exists_reaches (hne : edits ≠ []) (hids : ∀ e ∈ edits, e.id = id)
    (h : reviseAll now edits (opened stored edits) = .ok (t, writes))
    (hrewrites : Memory.Rewrites ((t.write? true id).toList ++ writes) stored final) :
    ∃ c, Reaches now edits stored final c := by
  cases edits with
  | nil => exact absurd rfl hne
  | cons e rest =>
      have hsame : ∀ other ∈ e :: rest, other.isAddition = e.isAddition := by
        intro other hother
        rw [isAddition_eq, isAddition_eq, hids other hother, hids e List.mem_cons_self]
      obtain ⟨hguarded, hunchanged⟩ := guarded_of_reviseAll hne h
      cases hadds : e.isAddition with
      | true =>
          have hall : ∀ other ∈ e :: rest, other.isAddition :=
            fun other hother => (hsame other hother).trans hadds
          rw [opened_of_isAddition hadds] at h
          cases stored with
          | some d => exact reaches_of_stored_counter hne hall h hrewrites
          | none =>
              obtain ⟨rfl, hsettles⟩ :=
                settlesAll_of_reviseAll (.inr ⟨Tracked.isNewCounter_absent, hall⟩) h
              rw [List.append_nil] at hrewrites
              exact reaches_of_settlesAll hids rfl rfl hsettles
                (Tracked.written hguarded hunchanged hrewrites)
      | false =>
          have hall : ∀ other ∈ e :: rest, other.isAddition = false :=
            fun other hother => (hsame other hother).trans hadds
          obtain ⟨rfl, hsettles⟩ := settlesAll_of_reviseAll (.inl hall) h
          rw [List.append_nil] at hrewrites
          have hwritten := Tracked.written hguarded hunchanged hrewrites
          cases hremoval : e.isRemoval with
          | false =>
              rw [opened, hremoval, if_neg Bool.false_ne_true] at hsettles
              exact reaches_of_settlesAll hids (Tracked.body?_ofLoaded stored)
                (Tracked.expiresAt_ofLoaded stored) hsettles hwritten
          | true =>
              rw [opened, hremoval, if_pos rfl] at h hsettles
              cases stored with
              | some d => exact reaches_of_removed hremoval hall h hguarded hwritten hrewrites
              | none => exact reaches_of_settlesAll hids rfl rfl hsettles hwritten

end Edit

end Jobyard
