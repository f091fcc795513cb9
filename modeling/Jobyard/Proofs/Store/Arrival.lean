import Jobyard.Proofs.Simulation.Calm

/-!
The order of arrival. Whatever is asked of a store, its documents have numbers of their own, which
were given out one after the other without gaps and are never given out again; a document that is
written to keeps its number, and its version counts the writes.
-/

namespace Jobyard

namespace Memory

inductive Wrote (m : Memory) (w : Write) (next : Memory) : Prop
  | removed (hdelete : w.isDelete = true) (hgone : next.find? w.id = none)
    (hlast : next.lastSequence = m.lastSequence)
  | replaced (d made : Stored) (hkeeps : w.isDelete = false) (hd : m.find? w.id = some d)
    (hmade : next.find? w.id = some made) (hid : made.id = d.id)
    (hsequence : made.sequence = d.sequence) (hetag : made.etag = d.etag + 1)
    (hlast : next.lastSequence = m.lastSequence)
  | created (made : Stored) (habsent : m.find? w.id = none) (hmade : next.find? w.id = some made)
    (hid : made.id = w.id) (hsequence : made.sequence = m.lastSequence + 1)
    (hetag : made.etag = 1) (hlast : next.lastSequence = m.lastSequence + 1)

theorem wrote_of_write {m next : Memory} {w : Write} (h : m.write w = .ok next) :
    Wrote m w next ∧ ∀ id, id ≠ w.id → next.find? id = m.find? id := by
  obtain ⟨document, houtcome, hfound, hothers⟩ := write_eq_ok h
  refine ⟨?_, hothers⟩
  cases hcurrent : m.find? w.id with
  | none =>
      rw [hcurrent] at houtcome
      rcases outcome_none houtcome with
        ⟨hdelete, rfl, hlast⟩ | ⟨_, made, rfl, hid, hetag, hsequence, hlast⟩
      · exact .removed hdelete hfound hlast
      · exact .created made hcurrent hfound hid hsequence hetag hlast
  | some d =>
      rw [hcurrent] at houtcome
      obtain ⟨hlast, ⟨hdelete, rfl⟩ | ⟨hkeeps, made, rfl, hid, hsequence, hetag⟩⟩ :=
        outcome_some houtcome
      · exact .removed hdelete hfound hlast
      · exact .replaced d made hkeeps hcurrent hfound hid hsequence hetag hlast

theorem Wrote.lastSequence_le {m next : Memory} {w : Write} (h : Wrote m w next) :
    m.lastSequence ≤ next.lastSequence := by
  cases h with
  | removed _ _ hlast => exact Nat.le_of_eq hlast.symm
  | replaced _ _ _ _ _ _ _ _ hlast => exact Nat.le_of_eq hlast.symm
  | created _ _ _ _ _ _ hlast => exact hlast ▸ Nat.le_succ _

theorem lastSequence_le_of_commit {m next : Memory} {batch : Batch}
    (h : m.commit batch = .ok next) : m.lastSequence ≤ next.lastSequence := by
  induction batch generalizing m with
  | nil =>
      rw [commit_nil] at h
      cases h
      exact Nat.le_refl _
  | cons w rest ih =>
      rw [commit_cons] at h
      obtain ⟨middle, hwrite, hrest⟩ := bind_eq_ok.mp h
      exact Nat.le_trans (wrote_of_write hwrite).1.lastSequence_le (ih hrest)

/-- Documents stand under their own identifiers, were written, and have different numbers, none of
which is yet to be given out. -/
structure Numbered (m : Memory) : Prop where
  keyed : m.Keyed
  etag_pos : ∀ id d, m.find? id = some d → 1 ≤ d.etag
  sequence_le : ∀ id d, m.find? id = some d → d.sequence ≤ m.lastSequence
  distinct : ∀ id other d e, m.find? id = some d → m.find? other = some e →
    d.sequence = e.sequence → id = other

theorem numbered_empty : empty.Numbered where
  keyed := keyed_empty
  etag_pos _ _ h := nomatch h
  sequence_le _ _ h := nomatch h
  distinct _ _ _ _ h := nomatch h

variable {m next : Memory} {w : Write} {batch : Batch}

theorem Numbered.of_kept (h : m.Numbered) (hlast : next.lastSequence = m.lastSequence)
    (hkept : ∀ id, next.find? id = none ∨ next.find? id = m.find? id) : next.Numbered := by
  have hfound : ∀ id d, next.find? id = some d → m.find? id = some d := by
    intro id d hd
    rcases hkept id with hnone | hsame
    · rw [hnone] at hd
      cases hd
    · exact hsame ▸ hd
  exact
    { keyed := fun id d hd => h.keyed id d (hfound id d hd)
      etag_pos := fun id d hd => h.etag_pos id d (hfound id d hd)
      sequence_le := fun id d hd => hlast ▸ h.sequence_le id d (hfound id d hd)
      distinct := fun id other d e hd he => h.distinct id other d e (hfound id d hd)
        (hfound other e he) }

theorem Numbered.write (h : m.Numbered) (hwrite : m.write w = .ok next) : next.Numbered := by
  obtain ⟨hwrote, hothers⟩ := wrote_of_write hwrite
  have hle := hwrote.lastSequence_le
  -- A document has an old number, or it was made by this write and has the next one.
  have hnumber : ∀ id d, next.find? id = some d → 1 ≤ d.etag ∧
      ((∃ old, m.find? id = some old ∧ d.sequence = old.sequence) ∨
        (id = w.id ∧ d.sequence = m.lastSequence + 1 ∧
          next.lastSequence = m.lastSequence + 1)) := by
    intro id d hd
    by_cases hid : id = w.id
    · subst hid
      cases hwrote with
      | removed _ hgone _ =>
          rw [hgone] at hd
          cases hd
      | replaced old made _ hold hmade _ hsequence hetag _ =>
          rw [hmade] at hd
          cases hd
          exact ⟨by omega, .inl ⟨old, hold, hsequence⟩⟩
      | created made _ hmade _ hsequence hetag hlast =>
          rw [hmade] at hd
          cases hd
          exact ⟨Nat.le_of_eq hetag.symm, .inr ⟨rfl, hsequence, hlast⟩⟩
    · rw [hothers id hid] at hd
      exact ⟨h.etag_pos id d hd, .inl ⟨d, hd, rfl⟩⟩
  refine ⟨h.keyed.write hwrite, fun id d hd => (hnumber id d hd).1, fun id d hd => ?_, ?_⟩
  · rcases (hnumber id d hd).2 with ⟨old, hold, hsequence⟩ | ⟨_, hsequence, hlast⟩
    · exact hsequence ▸ Nat.le_trans (h.sequence_le id old hold) hle
    · omega
  · intro id other d e hd he hsame
    rcases (hnumber id d hd).2, (hnumber other e he).2 with
      ⟨⟨old, hold, hsequence⟩ | ⟨hid, hsequence, _⟩,
        ⟨first, hfirst, hnumbered⟩ | ⟨hother, hnumbered, _⟩⟩
    · exact h.distinct id other old first hold hfirst (by omega)
    · have := h.sequence_le id old hold
      omega
    · have := h.sequence_le other first hfirst
      omega
    · exact hid.trans hother.symm

theorem Numbered.commit (h : m.Numbered) (hcommit : m.commit batch = .ok next) :
    next.Numbered := by
  induction batch generalizing m with
  | nil =>
      rw [commit_nil] at hcommit
      cases hcommit
      exact h
  | cons w rest ih =>
      rw [commit_cons] at hcommit
      obtain ⟨middle, hwrite, hrest⟩ := bind_eq_ok.mp hcommit
      exact ih (h.write hwrite) hrest

theorem Numbered.after (h : m.Numbered) (call : StoreCall) : (m.after call).Numbered := by
  cases call with
  | destroy => exact h.of_kept rfl fun _ => .inl rfl
  | commit batch =>
      cases hcommit : m.commit batch with
      | error e => rwa [after_commit_of_error hcommit]
      | ok next =>
          rw [after_commit_of_ok hcommit]
          exact h.commit hcommit
  | purge now limit => exact h.of_kept rfl (m.find?_purge now limit)
  | _ => exact h

theorem lastSequence_le_after (m : Memory) (call : StoreCall) :
    m.lastSequence ≤ (m.after call).lastSequence := by
  cases call with
  | commit batch =>
      cases hcommit : m.commit batch with
      | error e => exact Nat.le_of_eq (congrArg _ (after_commit_of_error hcommit).symm)
      | ok next =>
          rw [after_commit_of_ok hcommit]
          exact lastSequence_le_of_commit hcommit
  | _ => exact Nat.le_refl _

def newcomer? (m : Memory) (w : Write) (next : Memory) : Option Stored :=
  match m.find? w.id with
  | some _ => none
  | none => next.find? w.id

/-- The documents that a batch creates as it is worked out, if only to delete them again. -/
def newcomers (m : Memory) : Batch → List Stored
  | [] => []
  | w :: rest =>
    match m.write w with
    | .ok next => (m.newcomer? w next).toList ++ next.newcomers rest
    | .error _ => []

/-- What a call creates. A batch that is refused creates nothing. -/
def created (m : Memory) : StoreCall → List Stored
  | .commit batch => if (m.commit batch).isOk then m.newcomers batch else []
  | _ => []

def chronicle (m : Memory) : List StoreCall → List Stored
  | [] => []
  | call :: rest => m.created call ++ (m.after call).chronicle rest

theorem Wrote.sequence_newcomer (h : Wrote m w next) :
    List.range' 1 m.lastSequence ++ ((m.newcomer? w next).toList.map (·.sequence)) =
      List.range' 1 next.lastSequence := by
  cases h with
  | removed _ hgone hlast =>
      have hnone : m.newcomer? w next = none := by
        unfold newcomer?
        split
        · rfl
        · exact hgone
      rw [hnone, hlast]
      exact List.append_nil _
  | replaced d made _ hd _ _ _ _ hlast =>
      rw [newcomer?, hd, hlast]
      exact List.append_nil _
  | created made habsent hmade _ hsequence _ hlast =>
      rw [newcomer?, habsent, hlast, List.range'_concat]
      simp only [hmade, Option.toList_some, List.map_cons, List.map_nil, hsequence]
      congr 2
      omega

theorem sequence_newcomers (h : m.commit batch = .ok next) :
    List.range' 1 m.lastSequence ++ (m.newcomers batch).map (·.sequence) =
      List.range' 1 next.lastSequence := by
  induction batch generalizing m with
  | nil =>
      rw [commit_nil] at h
      cases h
      exact List.append_nil _
  | cons w rest ih =>
      rw [commit_cons] at h
      obtain ⟨middle, hwrite, hrest⟩ := bind_eq_ok.mp h
      rw [newcomers, hwrite]
      simp only
      rw [List.map_append, ← List.append_assoc, (wrote_of_write hwrite).1.sequence_newcomer]
      exact ih hrest

theorem sequence_created (m : Memory) (call : StoreCall) :
    List.range' 1 m.lastSequence ++ (m.created call).map (·.sequence) =
      List.range' 1 (m.after call).lastSequence := by
  cases call with
  | commit batch =>
      cases hcommit : m.commit batch with
      | error e =>
          rw [after_commit_of_error hcommit, created, hcommit]
          exact List.append_nil _
      | ok next =>
          rw [after_commit_of_ok hcommit, created, hcommit]
          exact sequence_newcomers hcommit
  | _ => exact List.append_nil _

theorem sequence_chronicle (m : Memory) (calls : List StoreCall) :
    List.range' 1 m.lastSequence ++ (m.chronicle calls).map (·.sequence) =
      List.range' 1 (calls.foldl after m).lastSequence := by
  induction calls generalizing m with
  | nil => exact List.append_nil _
  | cons call rest ih =>
      rw [chronicle, List.map_append, ← List.append_assoc, sequence_created]
      exact ih _

theorem lastSequence_lt_of_created {id : DocId} {d : Stored} (h : m.commit batch = .ok next)
    (hd : next.find? id = some d)
    (hcreated : m.find? id = none ∨ ∃ w ∈ batch, w.id = id ∧ w.isDelete = true) :
    m.lastSequence < d.sequence := by
  induction batch generalizing m with
  | nil =>
      rw [commit_nil] at h
      cases h
      rcases hcreated with habsent | ⟨_, hmem, _⟩
      · rw [habsent] at hd
        cases hd
      · cases hmem
  | cons w rest ih =>
      rw [commit_cons] at h
      obtain ⟨middle, hwrite, hrest⟩ := bind_eq_ok.mp h
      obtain ⟨hwrote, hothers⟩ := wrote_of_write hwrite
      by_cases hlater : middle.find? id = none ∨ ∃ w ∈ rest, w.id = id ∧ w.isDelete = true
      · exact Nat.lt_of_le_of_lt hwrote.lastSequence_le (ih hrest hlater)
      · -- The first write made the document, and the others kept it.
        obtain ⟨hpresent, hkept⟩ := not_or.mp hlater
        obtain ⟨made, hmade⟩ := Option.ne_none_iff_exists'.mp hpresent
        obtain ⟨kept, hfound, _, hsequence, _⟩ := find?_commit_of_kept hrest hmade
          fun other hother hid => Bool.eq_false_iff.mpr fun hdelete =>
            hkept ⟨other, hother, hid, hdelete⟩
        rw [hd] at hfound
        cases hfound
        rw [hsequence]
        have hfirst : m.find? id = none ∨ (w.id = id ∧ w.isDelete = true) := by
          refine hcreated.imp_right fun ⟨other, hother, hid, hdelete⟩ => ?_
          rcases List.mem_cons.mp hother with rfl | hmore
          · exact ⟨hid, hdelete⟩
          · exact absurd ⟨other, hmore, hid, hdelete⟩ hkept
        by_cases hid : id = w.id
        · subst hid
          cases hwrote with
          | removed _ hgone _ => exact absurd hgone hpresent
          | replaced old _ hkeeps hold _ _ _ _ _ =>
              rcases hfirst with habsent | ⟨_, hdelete⟩
              · rw [habsent] at hold
                cases hold
              · rw [hkeeps] at hdelete
                cases hdelete
          | created other _ hother _ hnumber _ _ =>
              rw [hmade] at hother
              cases hother
              omega
        · rw [hothers id hid] at hmade
          rcases hfirst with habsent | ⟨hsame, _⟩
          · rw [habsent] at hmade
            cases hmade
          · exact absurd hsame.symm hid

end Memory

namespace Simulation.World

def serve (w : World) (store : StoreRef) (calls : List StoreCall) : World :=
  calls.foldl (fun w call => (w.apply store call).2) w

theorem memory_serve (w : World) (store : StoreRef) (calls : List StoreCall) :
    (w.serve store calls).memory store = calls.foldl Memory.after (w.memory store) := by
  induction calls generalizing w with
  | nil => rfl
  | cons call rest ih =>
      rw [List.foldl_cons, ← (apply_follows w store call).memory]
      exact ih _

theorem numbered_serve (clock : Instant) (store : StoreRef) (calls : List StoreCall) :
    (((start clock).serve store calls).memory store).Numbered := by
  rw [memory_serve]
  have hstart : ((start clock).memory store).Numbered := Memory.numbered_empty
  generalize (start clock).memory store = m at hstart
  induction calls generalizing m with
  | nil => exact hstart
  | cons call rest ih => exact ih _ (hstart.after call)

/-- What a committed batch makes of a store in which some documents were created so far. -/
structure Arrives (created : List Stored) (m next : Memory) (batch : Batch) : Prop where
  /-- A document that the batch does not delete stays, and its version counts the writes. -/
  kept : ∀ id d, m.find? id = some d → (∀ w ∈ batch, w.id = id → w.isDelete = false) →
    ∃ kept, next.find? id = some kept ∧ kept.sequence = d.sequence ∧
      kept.etag = d.etag + batch.countP fun w => w.id = id
  last : ∀ id d, next.find? id = some d →
    (m.find? id = none ∨ ∃ w ∈ batch, w.id = id ∧ w.isDelete = true) →
      ∀ earlier ∈ created, earlier.sequence < d.sequence

/-- After any calls of a store its documents are numbered, the numbers were given out in the order
of creation, and so it goes on. -/
theorem arrival_of_calls (clock : Instant) (store : StoreRef) (calls : List StoreCall) :
    let w := (start clock).serve store calls
    let created := Memory.empty.chronicle calls
    (w.memory store).Numbered ∧
      created.map (·.sequence) = List.range' 1 (w.memory store).lastSequence ∧
      (∀ call, (w.memory store).lastSequence ≤
        ((w.apply store call).2.memory store).lastSequence) ∧
      (∀ batch e, (w.apply store (.commit batch)).1 = .error e →
        (w.apply store (.commit batch)).2 = w) ∧
      ∀ batch, (w.apply store (.commit batch)).1 = .ok () →
        Arrives created (w.memory store) ((w.apply store (.commit batch)).2.memory store)
          batch := by
  intro w created
  have hnumbers : created.map (·.sequence) = List.range' 1 (w.memory store).lastSequence := by
    rw [memory_serve]
    exact Memory.sequence_chronicle .empty calls
  refine ⟨numbered_serve clock store calls, hnumbers, fun call => ?_, fun batch e he => ?_,
    fun batch hok => ?_⟩
  · rw [(apply_follows w store call).memory]
    exact Memory.lastSequence_le_after _ call
  · rw [apply_answer] at he
    cases hcommit : (w.memory store).commit batch with
    | error e => simp only [apply, hcommit]
    | ok next =>
        rw [Memory.answer, hcommit] at he
        cases he
  · rw [apply_answer] at hok
    have hcommit := Memory.commit_eq_ok_of_isOk (Memory.isOk_commit_of_answer hok)
    rw [(apply_follows w store (.commit batch)).memory]
    refine ⟨fun id d hd hkeeps => ?_, fun id d hd hcreated earlier hmem => ?_⟩
    · obtain ⟨kept, hfound, _, hsequence, hetag⟩ := Memory.find?_commit_of_kept hcommit hd hkeeps
      exact ⟨kept, hfound, hsequence, hetag⟩
    · have hnumber : earlier.sequence ∈ created.map (·.sequence) := List.mem_map_of_mem hmem
      rw [hnumbers, List.mem_range'_1] at hnumber
      have := Memory.lastSequence_lt_of_created hcommit hd hcreated
      omega

namespace Sample

def keptId : DocId := ⟨"hashes", "a"⟩

def remadeId : DocId := ⟨"hashes", "b"⟩

/-- A document is made, deleted and made again by one batch, the second batch is refused, and then
everything is destroyed. -/
def arriving : List StoreCall :=
  [.commit [.put remadeId (.obj []) none .absent, .put keptId (.obj []) none .absent,
      .delete remadeId (.exact 1), .put remadeId (.obj []) none .absent],
    .commit [.put keptId (.obj []) none .any, .delete remadeId (.exact 7)], .destroy,
    .commit [.put keptId (.obj []) none .absent]]

def arrivingLast : Batch :=
  [.put keptId (.obj []) none (.exact 1), .put remadeId (.obj []) none .absent,
    .increment keptId "n" 1 none]

end Sample

theorem arrival_of_calls_remade :
    let w := (start .origin).serve ⟨0⟩ Sample.arriving
    let next := (w.apply ⟨0⟩ (.commit Sample.arrivingLast)).2
    let created := Memory.empty.chronicle Sample.arriving
    created.map (·.sequence) = [1, 2, 3, 4] ∧
      (∃ kept, (next.memory ⟨0⟩).find? Sample.keptId = some kept ∧ kept.sequence = 4 ∧
        kept.etag = 3) ∧
      ∃ d, (next.memory ⟨0⟩).find? Sample.remadeId = some d ∧
        ∀ earlier ∈ created, earlier.sequence < d.sequence := by
  intro w next created
  obtain ⟨-, hnumbers, -, -, harrives⟩ := arrival_of_calls .origin ⟨0⟩ Sample.arriving
  have hlast : (w.memory ⟨0⟩).lastSequence = 4 := rfl
  have hkept : (w.memory ⟨0⟩).find? Sample.keptId =
      some ⟨Sample.keptId, .obj [], 1, 4, none⟩ := rfl
  have hremade : (w.memory ⟨0⟩).find? Sample.remadeId = none := rfl
  obtain ⟨hkeeps, hcomes⟩ := harrives Sample.arrivingLast rfl
  refine ⟨hnumbers.trans (by rw [hlast]; rfl), ?_, ?_⟩
  · obtain ⟨kept, hfound, hsequence, hetag⟩ := hkeeps Sample.keptId _ hkept (by decide)
    exact ⟨kept, hfound, hsequence, hetag⟩
  · obtain ⟨d, hmade⟩ : ∃ d, (next.memory ⟨0⟩).find? Sample.remadeId = some d :=
      Option.isSome_iff_exists.mp (by decide +kernel)
    exact ⟨d, hmade, hcomes Sample.remadeId d hmade (.inl hremade)⟩

end Simulation.World

end Jobyard
