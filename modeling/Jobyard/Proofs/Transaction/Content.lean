import Jobyard.Proofs.Store.Counter
import Jobyard.Proofs.Transaction.Conflict

/-!
Edits as functions of the content of a document, one after the other. A session that does several
of them arrives at the same body. Its expiry is another one if the document was gone in between:
a session keeps the expiry of a document that it deleted for the one that takes its place.
-/

namespace Jobyard

structure Content where
  body : Json
  expiresAt : Option Instant

def Stored.content (d : Stored) : Content := ⟨d.body, d.expiresAt⟩

namespace Edit

def apply (now : Instant) (e : Edit) (c : Option Content) :
    Except StoreError (Option Content) := do
  let body ← e.alter now (c.map (·.body))
  .ok (body.map fun body => ⟨body, (e.dated now).getD (c.bind (·.expiresAt))⟩)

def applyAll (now : Instant) (edits : List Edit) (c : Option Content) :
    Except StoreError (Option Content) :=
  edits.foldlM (fun c e => e.apply now c) c

def reviseAll (now : Instant) : List Edit → Tracked → Except StoreError (Tracked × List Write)
  | [], t => .ok (t, [])
  | e :: rest, t => do
    let (t, writes) ← e.revise now t
    let (t, more) ← reviseAll now rest t
    .ok (t, writes ++ more)

/-- What a session starts from that does some edits of a document. -/
def opened (stored : Option Stored) : List Edit → Tracked
  | [] => .ofLoaded stored
  | e :: _ => if e.isRemoval then .unasked else .ofLoaded stored

variable {now : Instant} {e : Edit} {edits rest : List Edit} {c final : Option Content}

theorem opened_of_isAddition {stored : Option Stored} (h : e.isAddition) :
    opened stored (e :: rest) = .ofLoaded stored := by
  cases e with
  | addToCounter => rfl
  | _ => cases h

theorem applyAll_cons : applyAll now (e :: rest) c = e.apply now c >>= applyAll now rest :=
  List.foldlM_cons

theorem applyAll_append : applyAll now (edits ++ rest) c =
    applyAll now edits c >>= applyAll now rest :=
  List.foldlM_append

theorem applyAll_singleton : applyAll now [e] c = e.apply now c := by
  rw [applyAll_cons]
  cases e.apply now c <;> rfl

theorem applyAll_concat {middle : Option Content} (h : applyAll now edits c = .ok middle) :
    applyAll now (edits ++ [e]) c = e.apply now middle := by
  rw [applyAll_append, h]
  exact applyAll_singleton

theorem alter_job {jobId : JobId} {body : Option Json} (hid : e.id = Step.jobDocument jobId)
    (h : e.alter now body = .ok none) : body = none := by
  have hcollection := congrArg DocId.collection hid
  cases e with
  | expireJob | persistJob =>
      cases h
      rfl
  | setJobState _ state =>
      obtain ⟨found, _, hfound⟩ := bind_eq_ok.mp h
      cases found <;> cases hfound
  | _ => exact absurd hcollection (of_decide_eq_false rfl)

theorem isSome_of_addition {body altered : Option Json} (hadds : e.isAddition)
    (h : e.alter now body = .ok altered) : altered.isSome := by
  cases e with
  | addToCounter key delta length =>
      obtain ⟨found, _, hfound⟩ := bind_eq_ok.mp h
      cases found with
      | none =>
          cases hfound
          rfl
      | some counter =>
          obtain ⟨sum, _, hsum⟩ := bind_eq_ok.mp hfound
          cases hsum
          rfl
  | _ => cases hadds

theorem job_of_dated {date : Option Instant} {body : Option Json} (hdated : e.dated now = some date)
    (h : e.alter now body = .ok none) : ∃ jobId, e.id = Step.jobDocument jobId := by
  cases e with
  | expireJob jobId | persistJob jobId => exact ⟨jobId, rfl⟩
  | addToCounter => cases isSome_of_addition rfl h
  | expireSet | persistSet | expireList | persistList | expireHash | persistHash =>
      obtain ⟨found, _, hfound⟩ := bind_eq_ok.mp h
      cases hfound
  | _ => cases hdated

end Edit

structure Tracked.IsNewCounter (t : Tracked) : Prop where
  etag : t.etag = none
  body : ∀ body, t.body? = some body → ∃ c : Counter, body = Document.encode c

theorem Tracked.isNewCounter_absent : (Tracked.ofLoaded none).IsNewCounter :=
  ⟨rfl, fun _ hsome => nomatch hsome⟩

theorem Document.read_some {α : Type} [Document α] {id : DocId} {body : Json} {document : α}
    (h : Document.read α id (some body) = .ok (some document)) : decode? body = some document := by
  unfold read at h
  simp only at h
  split at h
  · cases h
    assumption
  · cases h

namespace Edit

variable {now : Instant} {e : Edit} {edits rest done : List Edit} {t next last : Tracked}
  {writes : List Write} {start c : Option Content}

/-- An edit that defers nothing and does to what a session holds what it does to the body. -/
structure Settles (now : Instant) (e : Edit) (t next : Tracked) : Prop
    extends t.Becomes next next.body? (e.dated now) where
  altered : e.alter now t.body? = .ok next.body?

def SettlesAll (now : Instant) : List Edit → Tracked → Tracked → Prop
  | [], t, last => last = t
  | e :: rest, t, last => ∃ next, e.Settles now t next ∧ SettlesAll now rest next last

theorem settles_of_not_addition (hadds : e.isAddition = false)
    (h : e.revise now t = .ok (next, writes)) : writes = [] ∧ e.Settles now t next := by
  obtain ⟨revised, hrevise, hagrees⟩ := agrees_revise hadds now t
  rw [hrevise] at h
  cases revised with
  | error failure => cases h
  | ok middle =>
      cases h
      obtain ⟨body, haltered, hbecomes⟩ := hagrees.of_revised
      cases hbecomes.body
      exact ⟨rfl, hbecomes, haltered⟩

theorem alter_addition {key : String} {delta : Int} {length : Option Duration} {body : Json}
    {counter : Counter}
    (hread : Document.read Counter (Document.idFor Counter key) (some body) = .ok (some counter)) :
    (addToCounter key delta length).alter now (some body) =
      (Memory.addTo body Counter.field delta).map some := by
  simp only [alter, Edit.id, hread, bind, Except.bind, Option.getD_some]
  cases Memory.addTo body Counter.field delta <;> rfl

theorem settles_of_new (hadds : e.isAddition) (hnew : t.IsNewCounter)
    (h : e.revise now t = .ok (next, writes)) :
    writes = [] ∧ e.Settles now t next ∧ next.IsNewCounter := by
  cases e with
  | addToCounter key delta length =>
      rcases Tracked.add_cases h with ⟨rfl, value, rfl, hvalue⟩ | ⟨_, _, hstored, _⟩
      · have hbecomes := t.becomes_count value (length.map now.expiresIn)
        have hbody := hbecomes.body
        refine ⟨rfl, ⟨?_, ?_⟩, hbecomes.etag.trans hnew.etag, fun body hsome => ?_⟩
        · rw [hbody]
          exact hbecomes
        · rw [hbody]
          rcases hvalue with ⟨hnone, rfl⟩ | ⟨_, counter, hread, rfl⟩
          · rw [hnone]
            rfl
          · cases hsome : t.body? with
            | none =>
                rw [hsome] at hread
                cases hread
            | some body =>
                obtain ⟨found, rfl⟩ := hnew.body body hsome
                rw [hsome] at hread
                have hdecode := Document.read_some hread
                cases Counter.eq_of_decode?_encode hdecode
                rw [alter_addition hread, Memory.addTo_encode hdecode]
                rfl
        · rw [hbody] at hsome
          cases hsome
          exact ⟨_, rfl⟩
      · rw [hnew.etag] at hstored
        cases hstored
  | _ => cases hadds

theorem settlesAll_of_reviseAll
    (hplain : (∀ e ∈ edits, e.isAddition = false) ∨
      (t.IsNewCounter ∧ ∀ e ∈ edits, e.isAddition))
    (h : reviseAll now edits t = .ok (last, writes)) :
    writes = [] ∧ SettlesAll now edits t last := by
  induction edits generalizing t writes with
  | nil =>
      cases h
      exact ⟨rfl, rfl⟩
  | cons e rest ih =>
      obtain ⟨⟨next, first⟩, hrevise, hmore⟩ := bind_eq_ok.mp h
      obtain ⟨⟨final, more⟩, hrest, hlast⟩ := bind_eq_ok.mp hmore
      cases hlast
      rcases hplain with hplain | ⟨hnew, hadds⟩
      · obtain ⟨rfl, hsettles⟩ := settles_of_not_addition (hplain e List.mem_cons_self) hrevise
        obtain ⟨rfl, hsettled⟩ :=
          ih (.inl fun other hother => hplain other (List.mem_cons_of_mem e hother)) hrest
        exact ⟨rfl, next, hsettles, hsettled⟩
      · obtain ⟨rfl, hsettles, hnext⟩ := settles_of_new (hadds e List.mem_cons_self) hnew hrevise
        obtain ⟨rfl, hsettled⟩ :=
          ih (.inr ⟨hnext, fun other hother => hadds other (List.mem_cons_of_mem e hother)⟩) hrest
        exact ⟨rfl, next, hsettles, hsettled⟩

theorem Settles.apply (h : e.Settles now t next) (hbody : c.map (·.body) = t.body?) :
    e.apply now c =
      .ok (next.body?.map fun body => ⟨body, (e.dated now).getD (c.bind (·.expiresAt))⟩) := by
  unfold Edit.apply
  rw [hbody, h.altered]
  rfl

theorem SettlesAll.applyAll (h : SettlesAll now edits t last)
    (hbody : c.map (·.body) = t.body?) :
    ∃ final, Edit.applyAll now edits c = .ok final ∧ final.map (·.body) = last.body? := by
  induction edits generalizing t c with
  | nil =>
      cases h
      exact ⟨c, rfl, hbody⟩
  | cons e rest ih =>
      obtain ⟨next, hfirst, hrest⟩ := h
      rw [applyAll_cons, hfirst.apply hbody]
      refine ih hrest ?_
      rw [Option.map_map]
      exact Option.map_id'

/-- The document got or had an expiry, and no later edit set it. -/
def Lingers (now : Instant) (start : Option Content) (edits : List Edit) : Prop :=
  ∃ before after, edits = before ++ after ∧
    (∃ content, applyAll now before start = .ok (some content) ∧ content.expiresAt.isSome) ∧
    ∀ e ∈ after, e.dated now = none

/-- Then the document was gone, and still no later edit set the expiry. -/
def Revives (now : Instant) (start : Option Content) (edits : List Edit) : Prop :=
  ∃ before after, edits = before ++ after ∧ Lingers now start before ∧
    applyAll now before start = .ok none ∧ ∀ e ∈ after, e.dated now = none

theorem Lingers.append (h : Lingers now start edits) (hundated : ∀ e ∈ rest, e.dated now = none) :
    Lingers now start (edits ++ rest) := by
  obtain ⟨before, after, rfl, hbefore, hafter⟩ := h
  refine ⟨before, after ++ rest, List.append_assoc .., hbefore, fun e hmem => ?_⟩
  exact (List.mem_append.mp hmem).elim (hafter e) (hundated e)

theorem Revives.lingers (h : Revives now start edits) : Lingers now start edits := by
  obtain ⟨before, after, rfl, hlingers, _, hafter⟩ := h
  exact hlingers.append hafter

theorem lingers_concat : Lingers now start (done ++ [e]) ↔
    (∃ content, applyAll now (done ++ [e]) start = .ok (some content) ∧
      content.expiresAt.isSome) ∨ e.dated now = none ∧ Lingers now start done := by
  constructor
  · rintro ⟨before, after, hsplit, hbefore, hafter⟩
    rcases List.eq_nil_or_concat after with rfl | ⟨middle, final, rfl⟩
    · rw [List.append_nil] at hsplit
      subst hsplit
      exact .inl hbefore
    · rw [List.concat_eq_append, ← List.append_assoc] at hsplit
      obtain ⟨rfl, hfinal⟩ := List.append_inj' hsplit rfl
      cases hfinal
      refine .inr ⟨hafter e (by simp), before, middle, rfl, hbefore, fun other hother => ?_⟩
      exact hafter other (by simp [hother])
  · rintro (hlast | ⟨hundated, hlingers⟩)
    · exact ⟨done ++ [e], [], (List.append_nil _).symm, hlast, fun _ hmem => nomatch hmem⟩
    · exact hlingers.append fun other hother => List.mem_singleton.mp hother ▸ hundated

theorem revives_concat : Revives now start (done ++ [e]) ↔
    (Lingers now start (done ++ [e]) ∧ applyAll now (done ++ [e]) start = .ok none) ∨
      e.dated now = none ∧ Revives now start done := by
  constructor
  · rintro ⟨before, after, hsplit, hlingers, hgone, hafter⟩
    rcases List.eq_nil_or_concat after with rfl | ⟨middle, final, rfl⟩
    · rw [List.append_nil] at hsplit
      subst hsplit
      exact .inl ⟨hlingers, hgone⟩
    · rw [List.concat_eq_append, ← List.append_assoc] at hsplit
      obtain ⟨rfl, hfinal⟩ := List.append_inj' hsplit rfl
      cases hfinal
      refine .inr ⟨hafter e (by simp), before, middle, rfl, hlingers, hgone, fun other hother => ?_⟩
      exact hafter other (by simp [hother])
  · rintro (⟨hlingers, hgone⟩ | ⟨hundated, before, after, rfl, hlingers, hgone, hafter⟩)
    · exact ⟨done ++ [e], [], (List.append_nil _).symm, hlingers, hgone, fun _ hmem => nomatch hmem⟩
    · refine ⟨before, after ++ [e], List.append_assoc .., hlingers, hgone, fun other hother => ?_⟩
      exact (List.mem_append.mp hother).elim (hafter other)
        fun hlast => List.mem_singleton.mp hlast ▸ hundated

structure Parallel (now : Instant) (start : Option Content) (done : List Edit) (t : Tracked)
    (c : Option Content) : Prop where
  reached : applyAll now done start = .ok c
  body : c.map (·.body) = t.body?
  lingers : t.expiresAt.isSome ↔ Lingers now start done
  present : ∀ content, c = some content →
    content.expiresAt = t.expiresAt ∧ ¬ Revives now start done ∨
      content.expiresAt = none ∧ t.expiresAt.isSome ∧ Revives now start done

theorem parallel_start (hbody : c.map (·.body) = t.body?)
    (hexpiresAt : t.expiresAt = c.bind (·.expiresAt)) : Parallel now c [] t c where
  reached := rfl
  body := hbody
  lingers := by
    rw [hexpiresAt]
    constructor
    · intro hsome
      cases c with
      | none => cases hsome
      | some content => exact ⟨[], [], rfl, ⟨content, rfl, hsome⟩, fun _ hmem => nomatch hmem⟩
    · rintro ⟨before, after, hsplit, ⟨content, hreached, hsome⟩, _⟩
      obtain ⟨rfl, rfl⟩ := List.append_eq_nil_iff.mp hsplit.symm
      cases hreached
      exact hsome
  present content hc := by
    subst hc
    refine .inl ⟨hexpiresAt.symm, ?_⟩
    rintro ⟨before, after, hsplit, _, hgone, _⟩
    obtain ⟨rfl, rfl⟩ := List.append_eq_nil_iff.mp hsplit.symm
    cases hgone

theorem Parallel.dated {date : Option Instant} (h : Parallel now start done t c)
    (hsettles : e.Settles now t next) (hdated : e.dated now = some date)
    (hmissing : next.body? = none → t.expiresAt = none) :
    Parallel now start (done ++ [e]) next
      (next.body?.map fun body => ⟨body, (e.dated now).getD (c.bind (·.expiresAt))⟩) := by
  have hreached := (applyAll_concat h.reached).trans (hsettles.apply h.body)
  have hexpiresAt := hsettles.expiresAt
  rw [hdated] at hreached hexpiresAt ⊢
  cases hbody : next.body? with
  | none =>
      rw [hbody] at hreached hexpiresAt
      refine ⟨hreached, hbody.symm, ?_, fun _ hc => nomatch hc⟩
      rw [hexpiresAt]
      simp only [Option.isSome_none, Bool.false_eq_true, if_false, hmissing hbody, false_iff]
      rw [lingers_concat, hreached, hdated]
      rintro (⟨_, hsome, _⟩ | ⟨hnone, _⟩)
      · cases hsome
      · cases hnone
  | some body =>
      rw [hbody] at hreached hexpiresAt
      have hdate : next.expiresAt = date := hexpiresAt
      refine ⟨hreached, hbody.symm, ?_, ?_⟩
      · rw [hdate, lingers_concat, hreached, hdated]
        constructor
        · exact fun hsome => .inl ⟨_, rfl, hsome⟩
        · rintro (⟨content, hcontent, hsome⟩ | ⟨hnone, _⟩)
          · cases hcontent
            exact hsome
          · cases hnone
      · intro content hc
        cases hc
        refine .inl ⟨hdate.symm, ?_⟩
        rw [revives_concat, hreached, hdated]
        rintro (⟨_, hnone⟩ | ⟨hnone, _⟩) <;> cases hnone

theorem Parallel.undated (h : Parallel now start done t c) (hsettles : e.Settles now t next)
    (hdated : e.dated now = none) :
    Parallel now start (done ++ [e]) next
      (next.body?.map fun body => ⟨body, (e.dated now).getD (c.bind (·.expiresAt))⟩) := by
  have hreached := (applyAll_concat h.reached).trans (hsettles.apply h.body)
  have hkept : next.expiresAt = t.expiresAt := by
    rw [hsettles.expiresAt, hdated]
    exact ite_self _
  have hlingers : t.expiresAt.isSome ↔ Lingers now start (done ++ [e]) := by
    rw [h.lingers, lingers_concat, hreached, hdated]
    refine ⟨fun hlingers => .inr ⟨rfl, hlingers⟩, ?_⟩
    rintro (⟨content, hcontent, hsome⟩ | ⟨_, hlingers⟩)
    · obtain ⟨body, _, rfl⟩ := Option.map_eq_some_iff.mp (Except.ok.inj hcontent)
      cases c with
      | none => cases hsome
      | some current =>
          rw [← h.lingers]
          rcases h.present current rfl with ⟨hsame, _⟩ | ⟨_, hkept, _⟩
          · rw [← hsame]
            exact hsome
          · exact hkept
    · exact hlingers
  refine ⟨hreached, ?_, hkept ▸ hlingers, fun content hcontent => ?_⟩
  · rw [Option.map_map]
    exact Option.map_id'
  · obtain ⟨body, hbody, rfl⟩ := Option.map_eq_some_iff.mp hcontent
    have hrevives : Revives now start (done ++ [e]) ↔ Revives now start done := by
      rw [revives_concat, hreached, hbody, hdated]
      exact ⟨fun hor => hor.elim (fun hgone => nomatch hgone.2) (·.2),
        fun hmore => .inr ⟨rfl, hmore⟩⟩
    rw [hdated, hkept, hrevives]
    cases c with
    | some current => exact h.present current rfl
    | none =>
        -- The document comes back: it has no expiry, the session may have kept one.
        by_cases hsome : t.expiresAt.isSome
        · refine .inr ⟨rfl, hsome, done, [], (List.append_nil _).symm, h.lingers.mp hsome,
            h.reached, fun _ hmem => nomatch hmem⟩
        · refine .inl ⟨?_, fun hrevived => hsome (h.lingers.mpr hrevived.lingers)⟩
          rw [Option.not_isSome_iff_eq_none.mp hsome]
          rfl

theorem Parallel.settles {id : DocId} (h : Parallel now start done t c)
    (hsettles : e.Settles now t next) (hid : e.id = id)
    (hjob : c = none → (∃ jobId, id = Step.jobDocument jobId) → t.expiresAt = none) :
    ∃ reached, Parallel now start (done ++ [e]) next reached ∧
      (reached = none → (∃ jobId, id = Step.jobDocument jobId) → next.expiresAt = none) := by
  have hmissing : next.body? = none → (∃ jobId, id = Step.jobDocument jobId) →
      t.expiresAt = none := by
    rintro hnone ⟨jobId, hjobId⟩
    have haltered := hsettles.altered
    rw [hnone] at haltered
    have hbefore := alter_job (hid.trans hjobId) haltered
    rw [← h.body, Option.map_eq_none_iff] at hbefore
    exact hjob hbefore ⟨jobId, hjobId⟩
  refine ⟨next.body?.map fun body => ⟨body, (e.dated now).getD (c.bind (·.expiresAt))⟩, ?_, ?_⟩
  · cases hdated : e.dated now with
    | none =>
        rw [← hdated]
        exact h.undated hsettles hdated
    | some date =>
        rw [← hdated]
        refine h.dated hsettles hdated fun hnone => hmissing hnone ?_
        have haltered := hsettles.altered
        rw [hnone] at haltered
        obtain ⟨jobId, hjobId⟩ := job_of_dated hdated haltered
        exact ⟨jobId, hid ▸ hjobId⟩
  · intro hgone hdocument
    have hnone := Option.map_eq_none_iff.mp hgone
    rw [hsettles.expiresAt, hnone]
    exact hmissing hnone hdocument

theorem Parallel.settlesAll {id : DocId} (h : Parallel now start done t c)
    (hsettles : SettlesAll now edits t last) (hids : ∀ e ∈ edits, e.id = id)
    (hjob : c = none → (∃ jobId, id = Step.jobDocument jobId) → t.expiresAt = none) :
    ∃ final, Parallel now start (done ++ edits) last final := by
  induction edits generalizing done t c with
  | nil =>
      cases hsettles
      exact ⟨c, (List.append_nil done).symm ▸ h⟩
  | cons e rest ih =>
      obtain ⟨next, hfirst, hrest⟩ := hsettles
      obtain ⟨reached, hnext, hnextJob⟩ := h.settles hfirst (hids e List.mem_cons_self) hjob
      have hfinal := ih hnext hrest
        (fun other hother => hids other (List.mem_cons_of_mem e hother)) hnextJob
      rwa [List.append_assoc, List.singleton_append] at hfinal

theorem apply_addition (key : String) {delta : Int} {length : Option Duration} {d next : Stored}
    {counter : Counter} (hcounter : Document.decode? d.body = some counter)
    (hadded : Memory.addTo d.body Counter.field delta = .ok next.body)
    (hexpiresAt : next.expiresAt = (length.map now.expiresIn <|> d.expiresAt)) :
    (addToCounter key delta length).apply now (some d.content) = .ok (some next.content) := by
  have hread : Document.read Counter (Document.idFor Counter key) (some d.body) =
      .ok (some counter) := by
    simp [Document.read, hcounter]
  change ((addToCounter key delta length).alter now (some d.body) >>= _) = _
  rw [alter_addition hread, hadded]
  simp only [Except.map, bind, Except.bind, Option.map_some, Stored.content, hexpiresAt, dated]
  cases length <;> rfl

theorem increment_of_revise (hadds : e.isAddition) (hetag : t.etag.isSome) (hbody : t.body?.isSome)
    (h : e.revise now t = .ok (next, writes)) :
    next = t ∧ ∃ key delta length counter, e = addToCounter key delta length ∧
      writes = [.increment (Document.idFor Counter key) Counter.field delta
        (length.map now.expiresIn)] ∧
      Document.read Counter (Document.idFor Counter key) t.body? = .ok (some counter) := by
  cases e with
  | addToCounter key delta length =>
      rcases Tracked.add_cases h with ⟨_, _, _, ⟨hnone, _⟩ | ⟨hnone, _⟩⟩ |
        ⟨hsame, hwrites, _, counter, hread⟩
      · rw [hnone] at hbody
        cases hbody
      · rw [hnone] at hetag
        cases hetag
      · exact ⟨hsame, key, delta, length, counter, rfl, hwrites, hread⟩
  | _ => cases hadds

theorem reviseAll_stored_counter (hadds : ∀ e ∈ edits, e.isAddition) (hetag : t.etag.isSome)
    (hbody : t.body?.isSome) (h : reviseAll now edits t = .ok (last, writes)) : last = t := by
  induction edits generalizing writes with
  | nil =>
      cases h
      rfl
  | cons e rest ih =>
      obtain ⟨⟨next, first⟩, hrevise, hmore⟩ := bind_eq_ok.mp h
      obtain ⟨⟨settled, more⟩, hrest, hlast⟩ := bind_eq_ok.mp hmore
      cases hlast
      obtain ⟨rfl, _⟩ := increment_of_revise (hadds e List.mem_cons_self) hetag hbody hrevise
      exact ih (fun other hother => hadds other (List.mem_cons_of_mem e hother)) hrest

/-- Additions that are left to the store arrive at what the edits themselves lead to. -/
theorem applyAll_of_increments {d : Stored} {final : Option Stored}
    (hadds : ∀ e ∈ edits, e.isAddition) (hetag : t.etag.isSome) (hbody : t.body?.isSome)
    (hread : ∀ delta sum, Memory.addTo d.body Counter.field delta = .ok sum →
      (Document.decode? d.body : Option Counter).isSome)
    (h : reviseAll now edits t = .ok (last, writes))
    (hrewrites : Memory.Rewrites writes (some d) final) :
    ∃ kept, final = some kept ∧
      applyAll now edits (some d.content) = .ok (some kept.content) := by
  induction edits generalizing d writes with
  | nil =>
      cases h
      exact ⟨d, Memory.rewrites_nil hrewrites, rfl⟩
  | cons e rest ih =>
      obtain ⟨⟨next, first⟩, hrevise, hmore⟩ := bind_eq_ok.mp h
      obtain ⟨⟨settled, more⟩, hrest, hlast⟩ := bind_eq_ok.mp hmore
      cases hlast
      obtain ⟨rfl, key, delta, length, _, rfl, rfl, _⟩ :=
        increment_of_revise (hadds e List.mem_cons_self) hetag hbody hrevise
      cases hrewrites with
      | cons houtcome hrewritten =>
          obtain ⟨middle, rfl, hadded, hexpiresAt⟩ := Memory.outcome_increment houtcome
          obtain ⟨counter, hcounter⟩ := Option.isSome_iff_exists.mp (hread _ _ hadded)
          obtain ⟨kept, hkept, hall⟩ := ih
            (fun other hother => hadds other (List.mem_cons_of_mem _ hother))
            (fun more sum hsum => Memory.decode?_of_addTo hadded hsum) hrest hrewritten
          refine ⟨kept, hkept, ?_⟩
          rw [applyAll_cons, apply_addition key hcounter hadded hexpiresAt]
          exact hall

theorem isSome_of_additions {content : Content} (hadds : ∀ e ∈ edits, e.isAddition)
    (h : applyAll now edits (some content) = .ok c) : c.isSome := by
  induction edits generalizing content with
  | nil =>
      cases h
      rfl
  | cons e rest ih =>
      rw [applyAll_cons] at h
      obtain ⟨middle, hfirst, hrest⟩ := bind_eq_ok.mp h
      obtain ⟨body, haltered, hbody⟩ := bind_eq_ok.mp hfirst
      obtain ⟨sum, rfl⟩ := Option.isSome_iff_exists.mp
        (isSome_of_addition (hadds e List.mem_cons_self) haltered)
      cases hbody
      exact ih (fun other hother => hadds other (List.mem_cons_of_mem _ hother)) hrest

end Edit

end Jobyard
