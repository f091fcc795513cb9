import Jobyard.Proofs.Transaction.Edit

/-!
What edits make of a document. An edit is also a function of the body alone, and its step does to
what a session holds of the document what that function does to the body; in addition an edit may
set the expiry.
-/

namespace Jobyard

def Document.read (α : Type) [Document α] (id : DocId) :
    Option Json → Except StoreError (Option α)
  | none => .ok none
  | some body =>
    match decode? body with
    | some document => .ok (some document)
    | none => .error (.document id .shape)

theorem Document.body_of_read {α : Type} [Document α] {id : DocId} {body : Option Json}
    (h : Document.read α id body = .ok none) : body = none := by
  cases body with
  | none => rfl
  | some body =>
      simp only [Document.read] at h
      split at h <;> cases h

namespace Tracked

variable {α : Type} {id : DocId} {t middle next : Tracked}

def body? (t : Tracked) : Option Json := if t.status = .deleted then none else t.body

theorem isPresent_eq (t : Tracked) : t.isPresent = t.body?.isSome := by
  unfold isPresent body?
  by_cases h : t.status = .deleted <;> simp [h]

theorem decode_eq_read [Document α] (t : Tracked) (id : DocId) :
    t.decode α id = Document.read α id t.body? := by
  unfold decode body? Document.read
  cases t.status <;> cases t.body <;> rfl

/-- What a session holds of a document goes on from one state to another: its version in the store
stays, and a changed document is there or deleted. -/
structure Succeeds (t next : Tracked) : Prop where
  etag : next.etag = t.etag
  known : next.known = t.known
  settled : next = t ∨ next.status = .deleted ∨ next.status = .dirty ∧ next.body.isSome

theorem succeeds_refl (t : Tracked) : t.Succeeds t := ⟨rfl, rfl, .inl rfl⟩

theorem Succeeds.trans (hfirst : t.Succeeds middle) (hsecond : middle.Succeeds next) :
    t.Succeeds next where
  etag := hsecond.etag.trans hfirst.etag
  known := hsecond.known.trans hfirst.known
  settled := by
    rcases hsecond.settled with rfl | hchanged
    · exact hfirst.settled
    · exact .inr hchanged

theorem succeeds_hold (t : Tracked) (body : Json) : t.Succeeds (t.hold body) :=
  ⟨rfl, rfl, .inr (.inr ⟨rfl, rfl⟩)⟩

theorem succeeds_drop (t : Tracked) : t.Succeeds t.drop := ⟨rfl, rfl, .inr (.inl rfl)⟩

theorem succeeds_date (h : t.isPresent) (expiresAt : Option Instant) :
    t.Succeeds (t.date expiresAt) :=
  ⟨rfl, rfl, .inr (.inr ⟨rfl, (Bool.and_eq_true_iff.mp h).1⟩)⟩

/-- A state that goes on to a given body. An expiry is set to `dated`, if that is given, but only
while there is a document. -/
structure Becomes (t next : Tracked) (altered : Option Json) (dated : Option (Option Instant)) :
    Prop extends t.Succeeds next where
  body : next.body? = altered
  expiresAt : next.expiresAt = if altered.isSome then dated.getD t.expiresAt else t.expiresAt

theorem becomes_hold (t : Tracked) (body : Json) : t.Becomes (t.hold body) (some body) none :=
  ⟨succeeds_hold t body, rfl, rfl⟩

theorem becomes_drop (t : Tracked) (dated : Option (Option Instant)) :
    t.Becomes t.drop none dated :=
  ⟨succeeds_drop t, rfl, rfl⟩

theorem becomes_date (h : t.isPresent) (expiresAt : Option Instant) :
    t.Becomes (t.date expiresAt) t.body? (some expiresAt) where
  toSucceeds := succeeds_date h expiresAt
  body := by
    have hstatus : t.status ≠ .deleted := by simpa using (Bool.and_eq_true_iff.mp h).2
    simp [body?, date, hstatus]
  expiresAt := by
    rw [isPresent_eq] at h
    rw [if_pos h]
    rfl

theorem Becomes.after {body : Option Json} {dated : Option (Option Instant)}
    (hfirst : t.Succeeds middle) (hexpiresAt : middle.expiresAt = t.expiresAt)
    (h : middle.Becomes next body dated) : t.Becomes next body dated where
  toSucceeds := hfirst.trans h.toSucceeds
  body := h.body
  expiresAt := by rw [h.expiresAt, hexpiresAt]

def Agrees (t : Tracked) (revised : Except StoreError Tracked)
    (altered : Except StoreError (Option Json)) (dated : Option (Option Instant)) : Prop :=
  match revised, altered with
  | .ok next, .ok body => t.Becomes next body dated
  | .error e, .error failure => e = failure
  | _, _ => False

theorem Agrees.of_revised {altered : Except StoreError (Option Json)}
    {dated : Option (Option Instant)} (h : t.Agrees (.ok next) altered dated) :
    ∃ body, altered = .ok body ∧ t.Becomes next body dated := by
  cases altered with
  | ok body => exact ⟨body, rfl, h⟩
  | error failure => exact h.elim

theorem Agrees.of_altered {revised : Except StoreError Tracked} {body : Option Json}
    {dated : Option (Option Instant)} (h : t.Agrees revised (.ok body) dated) :
    ∃ next, revised = .ok next ∧ t.Becomes next body dated := by
  cases revised with
  | ok next => exact ⟨next, rfl, h⟩
  | error e => exact h.elim

theorem fill_cases [FindOrCreate α] {document : α} (h : t.fill α id = .ok (document, next)) :
    (next = t ∧ Document.read α id t.body? = .ok (some document)) ∨
      (next = t.hold (Document.encode (FindOrCreate.blank : α)) ∧ document = FindOrCreate.blank ∧
        t.body? = none) := by
  obtain ⟨found, hdecode, hfound⟩ := bind_eq_ok.mp h
  rw [decode_eq_read] at hdecode
  cases found with
  | some _ =>
      cases hfound
      exact .inl ⟨rfl, hdecode⟩
  | none =>
      cases hfound
      exact .inr ⟨rfl, rfl, Document.body_of_read hdecode⟩

theorem fill_error [FindOrCreate α] {e : StoreError} (h : t.fill α id = .error e) :
    Document.read α id t.body? = .error e := by
  rcases bind_eq_error.mp h with hdecode | ⟨found, _, hfound⟩
  · rwa [decode_eq_read] at hdecode
  · cases found <;> cases hfound

theorem read_of_fill [FindOrCreate α] {document : α} (h : t.fill α id = .ok (document, next)) :
    (Document.read α id t.body?).map (·.getD FindOrCreate.blank) = .ok document ∧
      t.Succeeds next ∧ next.expiresAt = t.expiresAt ∧
      next.body? = some (t.body?.getD (Document.encode (FindOrCreate.blank : α))) := by
  rcases fill_cases h with ⟨rfl, hread⟩ | ⟨rfl, rfl, hnone⟩
  · rw [hread]
    refine ⟨rfl, succeeds_refl next, rfl, ?_⟩
    cases hbody : next.body? with
    | some body => rfl
    | none =>
        rw [hbody] at hread
        cases hread
  · rw [hnone]
    exact ⟨rfl, succeeds_hold t _, rfl, rfl⟩

theorem agrees_of_fill [FindOrCreate α] {revised : α × Tracked → Except StoreError Tracked}
    {altered : Option α → Except StoreError (Option Json)} {dated : Option (Option Instant)}
    (h : ∀ document next found, t.fill α id = .ok (document, next) →
      Document.read α id t.body? = .ok found → found.getD FindOrCreate.blank = document →
        t.Agrees (revised (document, next)) (altered found) dated) :
    t.Agrees (t.fill α id >>= revised) (Document.read α id t.body? >>= altered) dated := by
  cases hfill : t.fill α id with
  | error e =>
      rw [fill_error hfill]
      exact rfl
  | ok filled =>
      obtain ⟨hread, _⟩ := read_of_fill hfill
      cases hfound : Document.read α id t.body? with
      | error e =>
          rw [hfound] at hread
          cases hread
      | ok found =>
          rw [hfound] at hread
          exact h _ _ found hfill hfound (Except.ok.inj hread)

theorem agrees_change (α : Type) [FindOrCreate α] (id : DocId) (f : α → α) (t : Tracked) :
    t.Agrees (t.change α id f)
      (do
        let found ← Document.read α id t.body?
        .ok (some (Document.encode (f (found.getD FindOrCreate.blank))))) none := by
  apply agrees_of_fill
  rintro document next found hfill _ rfl
  obtain ⟨_, hsucceeds, hexpiresAt, _⟩ := read_of_fill hfill
  exact (becomes_hold next _).after hsucceeds hexpiresAt

theorem agrees_changeOrDrop (α : Type) [FindOrCreate α] (id : DocId) (f : α → α)
    (isEmpty : α → Bool) (t : Tracked) :
    t.Agrees (t.changeOrDrop α id f isEmpty)
      (do
        let found ← Document.read α id t.body?
        let document := f (found.getD FindOrCreate.blank)
        .ok (if isEmpty document then none else some (Document.encode document))) none := by
  apply agrees_of_fill
  rintro document next found hfill _ rfl
  obtain ⟨_, hsucceeds, hexpiresAt, _⟩ := read_of_fill hfill
  simp only
  split
  · exact (becomes_drop next none).after hsucceeds hexpiresAt
  · exact (becomes_hold next _).after hsucceeds hexpiresAt

theorem agrees_fillAndDate (α : Type) [FindOrCreate α] (id : DocId) (expiresAt : Option Instant)
    (t : Tracked) :
    t.Agrees (t.fillAndDate α id expiresAt)
      (do
        let _ ← Document.read α id t.body?
        .ok (some (t.body?.getD (Document.encode (FindOrCreate.blank : α))))) (some expiresAt) := by
  apply agrees_of_fill
  rintro document next found hfill _ rfl
  obtain ⟨_, hsucceeds, hexpiresAt, hbody⟩ := read_of_fill hfill
  rw [← hbody]
  exact (becomes_date (isPresent_of_fill hfill) expiresAt).after hsucceeds hexpiresAt

theorem agrees_dateIfPresent (expiresAt : Option Instant) (t : Tracked) :
    t.Agrees (.ok (t.dateIfPresent expiresAt)) (.ok t.body?) (some expiresAt) := by
  unfold dateIfPresent
  split
  · rename_i hpresent
    exact becomes_date hpresent expiresAt
  · rename_i habsent
    refine ⟨succeeds_refl t, rfl, ?_⟩
    rw [isPresent_eq] at habsent
    rw [if_neg habsent]

theorem agrees_enter (id : DocId) (state : JobState) (now : Instant) (t : Tracked) :
    t.Agrees (t.enter id state now)
      (do
        match ← Document.read Job id t.body? with
        | none => .error (.missing id)
        | some job => .ok (some (Document.encode (job.enter state now)))) none := by
  unfold enter
  rw [decode_eq_read]
  cases Document.read Job id t.body? with
  | error e => exact rfl
  | ok found =>
      cases found with
      | none => exact rfl
      | some job => exact becomes_hold t _

theorem becomes_count (t : Tracked) (value : Int) (expiresAt : Option Instant) :
    t.Becomes (t.count value expiresAt) (some (Document.encode (Counter.mk value)))
      (expiresAt.map some) := by
  cases expiresAt with
  | none => exact becomes_hold t _
  | some time =>
      exact (becomes_date (isPresent_hold t _) (some time)).after (succeeds_hold t _) rfl

/-- An addition goes to a counter that the session makes, or it is left to the store. -/
theorem add_cases {delta : Int} {expiresAt : Option Instant} {writes : List Write}
    (h : t.add id delta expiresAt = .ok (next, writes)) :
    (writes = [] ∧ ∃ value, next = t.count value expiresAt ∧
        ((t.body? = none ∧ value = delta) ∨
          t.etag = none ∧ ∃ counter, Document.read Counter id t.body? = .ok (some counter) ∧
            value = counter.value + delta)) ∨
      (next = t ∧ writes = [.increment id Counter.field delta expiresAt] ∧ t.etag.isSome ∧
        ∃ counter, Document.read Counter id t.body? = .ok (some counter)) := by
  obtain ⟨found, hdecode, hfound⟩ := bind_eq_ok.mp h
  rw [decode_eq_read] at hdecode
  cases found with
  | none =>
      cases hfound
      refine .inl ⟨rfl, delta, rfl, .inl ⟨?_, rfl⟩⟩
      exact Document.body_of_read hdecode
  | some counter =>
      simp only at hfound
      split at hfound
      · rename_i hnew
        cases hfound
        exact .inl ⟨rfl, _, rfl, .inr ⟨Option.isNone_iff_eq_none.mp hnew, counter, hdecode, rfl⟩⟩
      · rename_i hold
        cases hfound
        refine .inr ⟨rfl, rfl, ?_, counter, hdecode⟩
        exact Option.isSome_iff_ne_none.mpr fun hnone => hold (Option.isNone_iff_eq_none.mpr hnone)

end Tracked

namespace Edit

def alter (now : Instant) (e : Edit) (body : Option Json) : Except StoreError (Option Json) :=
  match e with
  | expireJob .. | persistJob _ => .ok body
  | setJobState _ state => do
    match ← Document.read Job e.id body with
    | none => .error (.missing e.id)
    | some job => .ok (some (Document.encode (job.enter state now)))
  | addToCounter _ delta _ => do
    match ← Document.read Counter e.id body with
    | none => .ok (some (Document.encode (Counter.mk delta)))
    | some _ => do
      let sum ← Memory.addTo (body.getD .null) Counter.field delta
      .ok (some sum)
  | addToSet _ member score => changed ScoredSet fun s => ⟨s.scores.insert member score⟩
  | addRangeToSet _ members =>
    changed ScoredSet fun s =>
      ⟨s.scores.insertMany (members.map fun member => (member, Double.zero))⟩
  | removeFromSet _ member =>
    changedOrDropped ScoredSet (fun s => ⟨s.scores.erase member⟩) fun s => s.scores.isEmpty
  | removeSet _ | removeHash _ => .ok none
  | expireSet .. | persistSet _ => filled ScoredSet
  | appendToList _ value => changed ValueList fun l => ⟨l.values ++ [value]⟩
  | removeFromList _ value =>
    changedOrDropped ValueList (fun l => ⟨l.values.filter (· ≠ value)⟩) fun l => l.values.isEmpty
  | trimList _ first last =>
    changedOrDropped ValueList (fun l => l.trim first last) fun l => l.values.isEmpty
  | expireList .. | persistList _ => filled ValueList
  | setFields _ fields => changed FieldMap fun h => ⟨h.fields.insertMany fields⟩
  | expireHash .. | persistHash _ => filled FieldMap
where
  changed (α : Type) [FindOrCreate α] (f : α → α) : Except StoreError (Option Json) := do
    let found ← Document.read α e.id body
    .ok (some (Document.encode (f (found.getD FindOrCreate.blank))))
  changedOrDropped (α : Type) [FindOrCreate α] (f : α → α) (isEmpty : α → Bool) :
      Except StoreError (Option Json) := do
    let found ← Document.read α e.id body
    let document := f (found.getD FindOrCreate.blank)
    .ok (if isEmpty document then none else some (Document.encode document))
  filled (α : Type) [FindOrCreate α] : Except StoreError (Option Json) := do
    let _ ← Document.read α e.id body
    .ok (some (body.getD (Document.encode (FindOrCreate.blank : α))))

def dated (now : Instant) : Edit → Option (Option Instant)
  | expireJob _ length | expireSet _ length | expireList _ length | expireHash _ length =>
    some (some (now.expiresIn length))
  | persistJob _ | persistSet _ | persistList _ | persistHash _ => some none
  | addToCounter _ _ length => (length.map now.expiresIn).map some
  | _ => none

def isAddition : Edit → Bool
  | addToCounter .. => true
  | _ => false

/-- Edits other than additions to counters defer nothing and do to what a session holds what they
do to the body. -/
theorem agrees_revise {e : Edit} (h : e.isAddition = false) (now : Instant) (t : Tracked) :
    ∃ revised, e.revise now t = revised.map (·, []) ∧
      t.Agrees revised (e.alter now t.body?) (e.dated now) := by
  cases e with
  | addToCounter => cases h
  | expireJob _ length => exact ⟨.ok _, rfl, t.agrees_dateIfPresent _⟩
  | persistJob _ => exact ⟨.ok _, rfl, t.agrees_dateIfPresent _⟩
  | setJobState _ state => exact ⟨_, rfl, t.agrees_enter _ state now⟩
  | addToSet => exact ⟨_, rfl, t.agrees_change ..⟩
  | addRangeToSet => exact ⟨_, rfl, t.agrees_change ..⟩
  | removeFromSet => exact ⟨_, rfl, t.agrees_changeOrDrop ..⟩
  | removeSet => exact ⟨.ok t.drop, rfl, t.becomes_drop _⟩
  | expireSet => exact ⟨_, rfl, t.agrees_fillAndDate ..⟩
  | persistSet => exact ⟨_, rfl, t.agrees_fillAndDate ..⟩
  | appendToList => exact ⟨_, rfl, t.agrees_change ..⟩
  | removeFromList => exact ⟨_, rfl, t.agrees_changeOrDrop ..⟩
  | trimList => exact ⟨_, rfl, t.agrees_changeOrDrop ..⟩
  | expireList => exact ⟨_, rfl, t.agrees_fillAndDate ..⟩
  | persistList => exact ⟨_, rfl, t.agrees_fillAndDate ..⟩
  | setFields => exact ⟨_, rfl, t.agrees_change ..⟩
  | removeHash => exact ⟨.ok t.drop, rfl, t.becomes_drop _⟩
  | expireHash => exact ⟨_, rfl, t.agrees_fillAndDate ..⟩
  | persistHash => exact ⟨_, rfl, t.agrees_fillAndDate ..⟩

theorem succeeds_of_revise {e : Edit} {now : Instant} {t next : Tracked} {writes : List Write}
    (h : e.revise now t = .ok (next, writes)) :
    t.Succeeds next ∧ ∀ w ∈ writes, ∃ field delta expiresAt,
      w = .increment e.id field delta expiresAt := by
  cases hadds : e.isAddition with
  | false =>
      obtain ⟨revised, hrevise, hagrees⟩ := agrees_revise hadds now t
      rw [hrevise] at h
      cases revised with
      | error failure => cases h
      | ok middle =>
          cases h
          obtain ⟨_, _, hbecomes⟩ := hagrees.of_revised
          exact ⟨hbecomes.toSucceeds, fun _ hmem => nomatch hmem⟩
  | true =>
      cases e with
      | addToCounter key delta length =>
          rcases Tracked.add_cases h with ⟨rfl, value, rfl, _⟩ | ⟨rfl, rfl, _⟩
          · exact ⟨(t.becomes_count value _).toSucceeds, fun _ hmem => nomatch hmem⟩
          · exact ⟨Tracked.succeeds_refl next, fun w hmem => ⟨_, _, _, List.mem_singleton.mp hmem⟩⟩
      | _ => cases hadds

theorem revise_of_isRemoval {e : Edit} (h : e.isRemoval) (now : Instant) (t : Tracked) :
    e.revise now t = .ok (t.drop, []) := by
  cases e with
  | removeSet | removeHash => rfl
  | _ => cases h

end Edit

end Jobyard
