import Jobyard.Proofs.Document.Proper
import Jobyard.Proofs.Transaction.Conduct

/-!
Units of work keep documents readable. What a session finds proper it leaves proper, so that a batch
writes proper bodies as long as the store shows nothing else.
-/

namespace Jobyard

namespace Tracked

def IsProper (id : DocId) (t : Tracked) : Prop := ∀ body, t.body = some body → Proper id body

variable {id : DocId} {t next seen : Tracked} {body : Json}

theorem isProper_unasked (id : DocId) : unasked.IsProper id := fun _ h => nomatch h

theorem isProper_absent (id : DocId) : absent.IsProper id := fun _ h => nomatch h

theorem isProper_ofStored {d : Stored} (h : Proper id d.body) : (ofStored d).IsProper id := by
  intro body hbody
  cases hbody
  exact h

theorem isProper_hold (t : Tracked) (h : Proper id body) : (t.hold body).IsProper id := by
  intro other hother
  cases hother
  exact h

theorem IsProper.dateIfPresent (h : t.IsProper id) (expiresAt : Option Instant) :
    (t.dateIfPresent expiresAt).IsProper id := by
  unfold Tracked.dateIfPresent
  split <;> exact h

theorem IsProper.write (h : t.IsProper id) {optimistic : Bool} {w : Write}
    (hwrite : t.write? optimistic id = some w) : w.IsProper := by
  unfold write? at hwrite
  split at hwrite
  · cases hwrite
  · obtain ⟨body, hbody, rfl⟩ := Option.map_eq_some_iff.mp hwrite
    exact h body hbody
  · split at hwrite <;> cases hwrite <;> trivial

theorem body_of_decode {α : Type} [Document α] {document : α}
    (h : t.decode α id = .ok (some document)) :
    ∃ body, t.body = some body ∧ Document.decode? body = some document := by
  unfold decode at h
  split at h
  · cases h
  · cases h
  · rename_i body hbody _
    split at h
    · rename_i hdecode
      cases h
      exact ⟨body, hbody, hdecode⟩
    · cases h

section Kinds

variable {α : Type} [FindOrCreate α] [Storable α]

theorem IsProper.fill (h : seen.IsProper id) (hknown : Shape.Known α)
    (hid : id.collection = Document.collection α)
    (hblank : Storable.Valid (FindOrCreate.blank : α)) {document : α}
    (hfill : seen.fill α id = .ok (document, t)) : Storable.Valid document ∧ t.IsProper id := by
  obtain ⟨found, hdecode, hfound⟩ := bind_eq_ok.mp hfill
  cases found with
  | none =>
      cases hfound
      exact ⟨hblank, isProper_hold seen (proper_encode hknown hid hblank)⟩
  | some document =>
      cases hfound
      obtain ⟨body, hbody, hread⟩ := body_of_decode hdecode
      exact ⟨(h body hbody).valid hknown hid hread, h⟩

variable {key : String}

theorem IsProper.change (h : seen.IsProper (Document.idFor α key)) (hknown : Shape.Known α)
    (hblank : Storable.Valid (FindOrCreate.blank : α)) {f : α → α}
    (hf : ∀ document, Storable.Valid document → Storable.Valid (f document))
    (hchange : seen.change α (Document.idFor α key) f = .ok next) :
    next.IsProper (Document.idFor α key) := by
  obtain ⟨⟨document, t⟩, hfill, hnext⟩ := bind_eq_ok.mp hchange
  cases hnext
  have hvalid := (h.fill hknown rfl hblank hfill).1
  exact isProper_hold t (proper_encode hknown rfl (hf document hvalid))

theorem IsProper.changeOrDrop (h : seen.IsProper (Document.idFor α key))
    (hknown : Shape.Known α) (hblank : Storable.Valid (FindOrCreate.blank : α)) {f : α → α}
    {isEmpty : α → Bool} (hf : ∀ document, Storable.Valid document → Storable.Valid (f document))
    (hchange : seen.changeOrDrop α (Document.idFor α key) f isEmpty = .ok next) :
    next.IsProper (Document.idFor α key) := by
  obtain ⟨⟨document, t⟩, hfill, hnext⟩ := bind_eq_ok.mp hchange
  cases hnext
  obtain ⟨hvalid, hproper⟩ := h.fill hknown rfl hblank hfill
  split
  · exact hproper
  · exact isProper_hold t (proper_encode hknown rfl (hf document hvalid))

theorem IsProper.fillAndDate (h : seen.IsProper (Document.idFor α key))
    (hknown : Shape.Known α) (hblank : Storable.Valid (FindOrCreate.blank : α))
    {expiresAt : Option Instant}
    (hdate : seen.fillAndDate α (Document.idFor α key) expiresAt = .ok next) :
    next.IsProper (Document.idFor α key) := by
  obtain ⟨⟨document, t⟩, hfill, hnext⟩ := bind_eq_ok.mp hdate
  cases hnext
  exact (h.fill hknown rfl hblank hfill).2

end Kinds

theorem isProper_enter (hid : id.collection = Document.collection Job) {state : JobState}
    {now : Instant} (henter : seen.enter id state now = .ok next) : next.IsProper id := by
  obtain ⟨found, _, hnext⟩ := bind_eq_ok.mp henter
  cases found with
  | none => cases hnext
  | some job =>
      cases hnext
      exact isProper_hold seen (proper_encode Shape.known_job hid trivial)

theorem isProper_count (hid : id.collection = Document.collection Counter) (t : Tracked)
    (value : Int) (expiresAt : Option Instant) : (t.count value expiresAt).IsProper id := by
  have hcounter := isProper_hold t ((proper_counter hid).mpr ⟨value, rfl⟩)
  cases expiresAt <;> exact hcounter

theorem IsProper.add (h : seen.IsProper id) (hid : id.collection = Document.collection Counter)
    {delta : Int} {expiresAt : Option Instant} {writes : List Write}
    (hadd : seen.add id delta expiresAt = .ok (next, writes)) :
    next.IsProper id ∧ ∀ w ∈ writes, w.IsProper := by
  rcases add_cases hadd with ⟨rfl, value, rfl, _⟩ | ⟨rfl, rfl, _⟩
  · exact ⟨isProper_count hid seen value expiresAt, fun _ h => nomatch h⟩
  · refine ⟨h, fun w hw => ?_⟩
    cases List.mem_singleton.mp hw
    exact ⟨hid, rfl⟩

end Tracked

def Edit.IsFinite : Edit → Prop
  | addToSet _ _ score => score.isFinite
  | _ => True

theorem Edit.isProper_revise {e : Edit} (hfinite : e.IsFinite) {now : Instant} {seen t : Tracked}
    {writes : List Write} (hseen : seen.IsProper e.id)
    (hrevise : e.revise now seen = .ok (t, writes)) :
    t.IsProper e.id ∧ ∀ w ∈ writes, w.IsProper := by
  have hnone : ∀ w ∈ ([] : List Write), w.IsProper := fun _ h => nomatch h
  -- All but additions to counters defer nothing.
  have hplain : ∀ {x : Except StoreError Tracked}, x.map (·, []) = .ok (t, writes) →
      (∀ u, x = .ok u → u.IsProper e.id) → t.IsProper e.id ∧ ∀ w ∈ writes, w.IsProper := by
    rintro (failure | u) h hproper
    · cases h
    · cases h
      exact ⟨hproper _ rfl, hnone⟩
  cases e with
  | expireJob id length =>
      cases hrevise
      exact ⟨hseen.dateIfPresent _, hnone⟩
  | persistJob id =>
      cases hrevise
      exact ⟨hseen.dateIfPresent _, hnone⟩
  | setJobState id state => exact hplain hrevise fun _ => Tracked.isProper_enter rfl
  | addToCounter key delta length => exact hseen.add rfl hrevise
  | addToSet key member score =>
      exact hplain hrevise fun _ => hseen.change Shape.known_scoredSet ScoredSet.finite_blank
        fun s hs => ScoredSet.Finite.insert hs member hfinite
  | addRangeToSet key members =>
      refine hplain hrevise fun _ => hseen.change Shape.known_scoredSet ScoredSet.finite_blank
        fun s hs => ScoredSet.Finite.insertMany hs fun entry hentry => ?_
      obtain ⟨member, _, rfl⟩ := List.mem_map.mp hentry
      rfl
  | removeFromSet key member =>
      exact hplain hrevise fun _ => hseen.changeOrDrop Shape.known_scoredSet ScoredSet.finite_blank
        fun s hs => ScoredSet.Finite.erase hs member
  | removeSet key =>
      cases hrevise
      exact ⟨hseen, hnone⟩
  | expireSet key length =>
      exact hplain hrevise fun _ => hseen.fillAndDate Shape.known_scoredSet ScoredSet.finite_blank
  | persistSet key =>
      exact hplain hrevise fun _ => hseen.fillAndDate Shape.known_scoredSet ScoredSet.finite_blank
  | appendToList key value =>
      exact hplain hrevise fun _ => hseen.change Shape.known_valueList trivial fun _ _ => trivial
  | removeFromList key value =>
      exact hplain hrevise fun _ =>
        hseen.changeOrDrop Shape.known_valueList trivial fun _ _ => trivial
  | trimList key first last =>
      exact hplain hrevise fun _ =>
        hseen.changeOrDrop Shape.known_valueList trivial fun _ _ => trivial
  | expireList key length =>
      exact hplain hrevise fun _ => hseen.fillAndDate Shape.known_valueList trivial
  | persistList key =>
      exact hplain hrevise fun _ => hseen.fillAndDate Shape.known_valueList trivial
  | setFields key fields =>
      exact hplain hrevise fun _ => hseen.change Shape.known_fieldMap trivial fun _ _ => trivial
  | removeHash key =>
      cases hrevise
      exact ⟨hseen, hnone⟩
  | expireHash key length =>
      exact hplain hrevise fun _ => hseen.fillAndDate Shape.known_fieldMap trivial
  | persistHash key =>
      exact hplain hrevise fun _ => hseen.fillAndDate Shape.known_fieldMap trivial

namespace Session

structure IsProper (s : Session) : Prop where
  distinct : s.Distinct
  tracked : ∀ id t, s.find? id = some t → t.IsProper id
  deferred : ∀ w ∈ s.deferred, w.IsProper

variable {s next : Session} {id : DocId} {t : Tracked} {writes : List Write}

theorem isProper_empty (store : StoreRef) (optimistic : Bool) :
    (empty store optimistic).IsProper :=
  ⟨distinct_empty store optimistic, fun _ _ h => (nomatch h), fun _ h => nomatch h⟩

theorem IsProper.amend (h : s.IsProper) (hamends : s.Amends next id t writes)
    (ht : t.IsProper id) (hwrites : ∀ w ∈ writes, w.IsProper) : next.IsProper where
  distinct := hamends.distinct h.distinct
  tracked other u hfound := by
    by_cases hother : other = id
    · subst hother
      have hself := hamends.self
      rw [hfound, Option.getD_some] at hself
      exact hself ▸ ht
    · exact h.tracked other u ((hamends.others other hother).symm.trans hfound)
  deferred w hw := by
    rw [hamends.deferred] at hw
    rcases List.mem_append.mp hw with hearlier | hnew
    · exact h.deferred w hearlier
    · exact hwrites w hnew

theorem IsProper.batch (h : s.IsProper) : ∀ w ∈ s.batch, w.IsProper := by
  intro w hw
  rw [batch_eq] at hw
  rcases List.mem_append.mp hw with hdocument | hdeferred
  · obtain ⟨t, hfound, hwrite⟩ := (mem_documentWrites_iff h.distinct).mp hdocument
    exact (h.tracked w.id t hfound).write hwrite
  · exact h.deferred w hdeferred

end Session

/-- What a store shows, to loads and to queries, has proper bodies; queries find documents of the
collection that they ask for. -/
structure Exchange.IsProper (store : StoreRef) (exchange : Exchange) : Prop where
  loaded : ∀ id d, exchange.Loads store id d → Proper id d.body
  queried : ∀ q found, exchange = ⟨.store store (.query q), .ok found⟩ →
    ∀ d ∈ found, Proper d.id d.body
  found : ∀ collection id, exchange.Finds store collection id → id.collection = collection

def Log.IsProper (store : StoreRef) (log : Log) : Prop := ∀ exchange ∈ log, exchange.IsProper store

/-- The requests of programs that keep a store readable: as long as it shows proper bodies only,
they write nothing else. -/
def Keeps (store : StoreRef) (log : Log) (request : Request) : Prop :=
  ∀ batch, request = .store store (.commit batch) → log.IsProper store → ∀ w ∈ batch, w.IsProper

theorem Session.IsProper.glimpse {s : Session} {log : Log} {id : DocId} {t : Tracked}
    (h : s.IsProper) (hlog : log.IsProper s.store) (hglimpses : s.Glimpses log id t) :
    t.IsProper id := by
  rcases hglimpses with hheld | ⟨_, hreports⟩
  · exact h.tracked id t hheld
  · cases hreports with
    | silent => exact Tracked.isProper_unasked id
    | absent => exact Tracked.isProper_absent id
    | stored d hloads =>
        obtain ⟨exchange, hmem, hloads⟩ := hloads
        exact Tracked.isProper_ofStored ((hlog exchange hmem).loaded id d hloads)

end Jobyard
