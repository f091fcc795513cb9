import Jobyard.Proofs.Session.Sight
import Jobyard.Proofs.Store.Version
import Jobyard.Session.Kind

/-!
Reads of documents that can be read. A session whose store and whose own documents have legible
bodies fails at a read only if the query is invalid.
-/

namespace Jobyard

/-- A body that can be read if it is one of the documents of a kind. -/
def Document.Legible (α : Type) [Document α] (id : DocId) (body : Json) : Prop :=
  id.collection = collection α → (decode? body : Option α).isSome

open Document (Legible)

section Kinds

variable {α : Type} [Document α] {s next : Session} {m : Memory} {id : DocId} {t : Tracked}

def Memory.Legible (α : Type) [Document α] (m : Memory) : Prop :=
  ∀ id d, m.find? id = some d → Document.Legible α id d.body

namespace Session

def Legible (α : Type) [Document α] (s : Session) : Prop :=
  ∀ id t, s.find? id = some t → ∀ body, t.body = some body → Document.Legible α id body

theorem Legible.track (h : s.Legible α)
    (ht : ∀ body, t.body = some body → Document.Legible α id body) :
    (s.track id t).Legible α := by
  intro other u hfound
  rw [find?_track] at hfound
  split at hfound
  · rename_i hother
    subst hother
    cases hfound
    exact ht
  · exact h other u hfound

theorem Legible.absorb (h : s.Legible α) {loaded : List (DocId × Option Stored)}
    (hloaded : ∀ id d, (id, some d) ∈ loaded → Document.Legible α id d.body) :
    (s.absorb loaded).Legible α := by
  induction loaded generalizing s with
  | nil => exact h
  | cons first rest ih =>
      obtain ⟨id, document⟩ := first
      refine ih (h.track ?_) fun other d hmem => hloaded other d (List.mem_cons_of_mem _ hmem)
      intro body hbody
      cases document with
      | none => cases hbody
      | some d =>
          cases hbody
          exact hloaded id d List.mem_cons_self

theorem Legible.observe (h : s.Legible α) {d : Stored}
    (hd : Document.Legible α d.id d.body) : (s.observe d).Legible α := by
  unfold Session.observe
  split
  · exact h
  · refine h.track fun body hbody => ?_
    cases hbody
    exact hd

theorem Legible.decode (h : s.Legible α) (hid : id.collection = Document.collection α) :
    ∃ found : Option α, (s.find? id).elim (.ok none) (Tracked.decode α id) = .ok found := by
  cases hfound : s.find? id with
  | none => exact ⟨none, rfl⟩
  | some t =>
      obtain ⟨body, etag, known, expiresAt, status⟩ := t
      cases body with
      | none => cases status <;> exact ⟨none, rfl⟩
      | some body =>
          obtain ⟨document, hread⟩ := Option.isSome_iff_exists.mp (h id _ hfound body rfl hid)
          cases status with
          | deleted => exact ⟨none, rfl⟩
          | unchanged => exact ⟨some document, by simp [Tracked.decode, hread]⟩
          | dirty => exact ⟨some document, by simp [Tracked.decode, hread]⟩

end Session

namespace Work

theorem start_mapM_view (h : s.Legible α) {ids : List DocId}
    (hids : ∀ id ∈ ids, id.collection = Document.collection α) :
    ∃ found, start (ids.mapM (view α)) s = .done (.ok found, s) := by
  induction ids with
  | nil => exact ⟨[], rfl⟩
  | cons id rest ih =>
      obtain ⟨first, hfirst⟩ := h.decode (hids id List.mem_cons_self)
      obtain ⟨others, hothers⟩ := ih fun other hmem => hids other (List.mem_cons_of_mem id hmem)
      refine ⟨first :: others, ?_⟩
      rw [List.mapM_cons, start_bind, start_view, hfirst, Interaction.done_bind]
      simp only
      rw [start_bind, hothers]
      rfl

theorem start_gather_legible (h : s.Legible α) {found : List Stored}
    (hfound : ∀ d ∈ found, d.id.collection = Document.collection α ∧
      Document.Legible α d.id d.body) :
    ∃ gathered next, start (gather α found) s = .done (.ok gathered, next) ∧ next.Legible α := by
  induction found generalizing s with
  | nil => exact ⟨[], s, rfl, h⟩
  | cons d rest ih =>
      obtain ⟨hid, hd⟩ := hfound d List.mem_cons_self
      have hobserved := h.observe hd
      obtain ⟨first, hfirst⟩ := hobserved.decode hid
      obtain ⟨others, next, hothers, hnext⟩ := ih hobserved
        fun other hmem => hfound other (List.mem_cons_of_mem d hmem)
      have hstart : start (gather α (d :: rest)) s =
          .done (.ok (first.elim others fun document => (d.id, document) :: others), next) := by
        unfold gather
        rw [start_bind, start_modify, Interaction.done_bind]
        simp only
        rw [start_bind, start_view, hfirst, Interaction.done_bind]
        simp only
        rw [start_bind, hothers]
        cases first <;> rfl
      exact ⟨_, next, hstart, hnext⟩

end Work

end Kinds

namespace Simulation.World

open Work

variable {α : Type} [Document α] {w : World} {s : Session}

theorem run_ensureLoaded_legible (hcalm : w.Calm) (hm : (w.memory s.store).Legible α)
    (hs : s.Legible α) (ids : List DocId) :
    ∃ next, w.run ((ensureLoaded ids).start s) = ((.ok (), next), w) ∧ next.Legible α := by
  rw [start_ensureLoaded]
  split
  · exact ⟨s, rfl, hs⟩
  · rw [run_store, call_load hcalm]
    refine ⟨_, rfl, hs.absorb fun id d hmem => ?_⟩
    exact hm id d (Memory.mem_zip_load hmem).symm

theorem run_load_legible (hcalm : w.Calm) (hm : (w.memory s.store).Legible α)
    (hs : s.Legible α) {id : DocId} (hid : id.collection = Document.collection α) :
    ∃ found next, w.run ((load α id).start s) = ((.ok found, next), w) ∧ next.Legible α := by
  obtain ⟨next, hloaded, hnext⟩ := run_ensureLoaded_legible hcalm hm hs [id]
  obtain ⟨found, hfound⟩ := hnext.decode hid
  refine ⟨found, next, ?_, hnext⟩
  unfold load
  rw [run_start_bind hloaded, start_view, hfound]
  rfl

theorem run_loadMany_legible (hcalm : w.Calm) (hm : (w.memory s.store).Legible α)
    (hs : s.Legible α) {ids : List DocId}
    (hids : ∀ id ∈ ids, id.collection = Document.collection α) :
    ∃ found next, w.run ((loadMany α ids).start s) = ((.ok found, next), w) ∧ next.Legible α := by
  obtain ⟨next, hloaded, hnext⟩ := run_ensureLoaded_legible hcalm hm hs ids
  obtain ⟨found, hfound⟩ := start_mapM_view hnext hids
  refine ⟨found, next, ?_, hnext⟩
  unfold loadMany
  rw [run_start_bind hloaded, hfound]
  rfl

theorem run_loadOrBlank_legible {α : Type} [FindOrCreate α] {s : Session} (hcalm : w.Calm)
    (hblank : (Document.decode? (Document.encode (FindOrCreate.blank : α)) : Option α).isSome)
    (hm : (w.memory s.store).Legible α) (hs : s.Legible α) {id : DocId}
    (hid : id.collection = Document.collection α) :
    ∃ document next, w.run ((loadOrBlank α id).start s) = ((.ok document, next), w) ∧
      next.Legible α := by
  obtain ⟨found, next, hload, hnext⟩ := run_load_legible hcalm hm hs hid
  unfold loadOrBlank
  rw [run_start_bind hload]
  cases found with
  | some document => exact ⟨document, next, rfl, hnext⟩
  | none =>
      refine ⟨_, _, rfl, ?_⟩
      simp only [Session.put_eq_track]
      refine hnext.track fun body hbody _ => ?_
      cases hbody
      exact hblank

theorem run_query_legible (hcalm : w.Calm) (hkeyed : (w.memory s.store).Keyed)
    (hm : (w.memory s.store).Legible α) (hs : s.Legible α) {q : Query}
    (hq : q.collection = Document.collection α) :
    ∃ result next, w.run ((query α q).start s) = ((result, next), w) ∧ next.Legible α ∧
      ∀ e, result = .error e → q.validate = .error e := by
  unfold query
  rw [start_bind, start_askStore, Interaction.call_bind, run_store, call_query hcalm]
  cases hquery : (w.memory s.store).query q with
  | error e =>
      refine ⟨.error e, s, rfl, hs, fun other heq => ?_⟩
      cases heq
      exact (bind_eq_error.mp hquery).resolve_right fun ⟨_, _, hfound⟩ => nomatch hfound
  | ok found =>
      have hfound : ∀ d ∈ found, d.id.collection = Document.collection α ∧
          Document.Legible α d.id d.body := by
        intro d hd
        obtain ⟨hstored, haccepts⟩ := Memory.mem_of_query hkeyed hquery hd
        have hcollection : d.id.collection = q.collection :=
          beq_iff_eq.mp (Bool.and_eq_true_iff.mp haccepts).1
        exact ⟨hcollection.trans hq, hm d.id d hstored⟩
      obtain ⟨gathered, next, hgather, hnext⟩ := start_gather_legible hs hfound
      refine ⟨.ok gathered, next, ?_, hnext, fun _ heq => nomatch heq⟩
      change w.run ((gather α found).start s) = _
      rw [hgather]
      rfl

end Simulation.World

theorem Query.kind_of_validate {q : Query} {e : StoreError} (h : q.validate = .error e) :
    e.kind = .invalidQuery := by
  unfold validate at h
  split at h
  · cases h
    rfl
  · split at h
    · cases h
      rfl
    · cases h

inductive Reading
  | load (id : DocId)
  | loadMany (ids : List DocId)
  | loadOrBlank (id : DocId)
  | query (q : Query)

namespace Reading

def work (kind : Kind) : Reading → Work Unit
  | load id => discard (kind.load id)
  | loadMany ids => discard (kind.loadMany ids)
  | loadOrBlank id => discard (kind.loadOrBlank id)
  | query q => discard (kind.query q)

def Within (collection : String) : Reading → Prop
  | load id | loadOrBlank id => id.collection = collection
  | loadMany ids => ∀ id ∈ ids, id.collection = collection
  | query q => q.collection = collection

end Reading

namespace Kind

def Reads (kind : Kind) (id : DocId) (body : Json) : Prop :=
  id.collection = kind.collection → (kind.recode? body).isSome

theorem reads_of {α : Type} [Document α] {loadOrBlank : DocId → Work Json} {id : DocId}
    {body : Json} : (of α loadOrBlank).Reads id body ↔ Document.Legible α id body := by
  unfold Reads Document.Legible of
  rw [Option.isSome_map]

end Kind

namespace Simulation.World

variable {w : World} {s : Session} {reading : Reading} {e : StoreError}

theorem run_return {β γ : Type} {work : Work β} {value : β} {next : Session}
    (h : w.run (work.start s) = ((.ok value, next), w)) (f : β → γ) :
    w.run ((do return f (← work) : Work γ).start s) = ((.ok (f value), next), w) :=
  run_start_bind h fun found => pure (f found)

theorem kind_of_run_of {α : Type} [Document α] {loadOrBlank : DocId → Work Json} (hcalm : w.Calm)
    (hkeyed : (w.memory s.store).Keyed) (hm : (w.memory s.store).Legible α) (hs : s.Legible α)
    (hblank : ∀ id, id.collection = Document.collection α →
      ∃ value next, w.run ((loadOrBlank id).start s) = ((.ok value, next), w))
    (hwithin : reading.Within (Document.collection α))
    (herror : (w.run ((reading.work (.of α loadOrBlank)).start s)).1.1 = .error e) :
    e.kind = .invalidQuery := by
  cases reading with
  | load id =>
      obtain ⟨found, next, hload, _⟩ := run_load_legible hcalm hm hs hwithin
      change (w.run ((discard (do
        return Json.ofOption Document.encode (← Work.load α id))).start s)).1.1 = .error e at herror
      rw [run_discard (run_return hload _)] at herror
      cases herror
  | loadMany ids =>
      obtain ⟨found, next, hload, _⟩ := run_loadMany_legible hcalm hm hs hwithin
      change (w.run ((discard (do
        return Json.arr ((← Work.loadMany α ids).map
          (Json.ofOption Document.encode)))).start s)).1.1 = .error e at herror
      rw [run_discard (run_return hload _)] at herror
      cases herror
  | loadOrBlank id =>
      obtain ⟨value, next, hrun⟩ := hblank id hwithin
      change (w.run ((discard (loadOrBlank id)).start s)).1.1 = .error e at herror
      rw [run_discard hrun] at herror
      cases herror
  | query q =>
      obtain ⟨result, next, hquery, _, hinvalid⟩ := run_query_legible hcalm hkeyed hm hs hwithin
      change (w.run ((discard (do
        return (← Work.query α q).map fun entry : DocId × α =>
          (entry.1, Document.encode entry.2) : Work (List (DocId × Json)))).start s)).1.1 =
            .error e at herror
      cases result with
      | ok found =>
          rw [run_discard (run_return hquery _)] at herror
          cases herror
      | error failure =>
          rw [run_discard_error (run_start_bind_error hquery _)] at herror
          cases herror
          exact Query.kind_of_validate (hinvalid _ rfl)

theorem kind_of_run_ofBlank {α : Type} [FindOrCreate α] (hcalm : w.Calm)
    (hkeyed : (w.memory s.store).Keyed)
    (hblank : (Document.decode? (Document.encode (FindOrCreate.blank : α)) : Option α).isSome)
    (hm : (w.memory s.store).Legible α) (hs : s.Legible α)
    (hwithin : reading.Within (Document.collection α))
    (herror : (w.run ((reading.work (.ofBlank α)).start s)).1.1 = .error e) :
    e.kind = .invalidQuery := by
  refine kind_of_run_of hcalm hkeyed hm hs (fun id hid => ?_) hwithin herror
  obtain ⟨document, next, hload, _⟩ := run_loadOrBlank_legible hcalm hblank hm hs hid
  exact ⟨Document.encode document, next, run_start_bind hload _⟩

/-- In a store and a session whose documents can be read, no reading fails but for its query. -/
theorem kind_of_run_reading (hcalm : w.Calm) (hkeyed : (w.memory s.store).Keyed) {name : String}
    {kind : Kind} (hkind : (name, kind) ∈ Kind.all)
    (hm : ∀ id d, (w.memory s.store).find? id = some d → kind.Reads id d.body)
    (hs : ∀ id t, s.find? id = some t → ∀ body, t.body = some body → kind.Reads id body)
    (hwithin : reading.Within kind.collection)
    (herror : (w.run ((reading.work kind).start s)).1.1 = .error e) :
    e.kind = .invalidQuery := by
  simp only [Kind.all, List.mem_cons, Prod.mk.injEq, List.not_mem_nil, or_false] at hkind
  have hofBlank : ∀ (α : Type) [FindOrCreate α], kind = .ofBlank α →
      (Document.decode? (Document.encode (FindOrCreate.blank : α)) : Option α).isSome →
      e.kind = .invalidQuery := by
    rintro α _ rfl hblank
    exact kind_of_run_ofBlank hcalm hkeyed hblank (fun id d h => Kind.reads_of.mp (hm id d h))
      (fun id t h body hbody => Kind.reads_of.mp (hs id t h body hbody)) hwithin herror
  rcases hkind with ⟨_, h⟩ | ⟨_, rfl⟩ | ⟨_, h⟩ | ⟨_, h⟩ | ⟨_, h⟩ | ⟨_, h⟩ | ⟨_, h⟩
  · exact hofBlank Job h (by decide +kernel)
  · exact kind_of_run_of hcalm hkeyed (fun id d h => Kind.reads_of.mp (hm id d h))
      (fun id t h body hbody => Kind.reads_of.mp (hs id t h body hbody))
      (fun _ _ => ⟨.null, s, rfl⟩) hwithin herror
  · exact hofBlank Counter h (by decide +kernel)
  · exact hofBlank ScoredSet h (by decide +kernel)
  · exact hofBlank ValueList h (by decide +kernel)
  · exact hofBlank FieldMap h (by decide +kernel)
  · exact hofBlank Server h (by decide +kernel)

end Simulation.World

end Jobyard
