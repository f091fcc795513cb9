import Jobyard.Proofs.Queue.Entry
import Jobyard.Proofs.Store.Query
import Jobyard.Queue.JobQueue

/-!
What a consumer looks for, and what it finds of entries that are stored as they were written: a
name is compared with the names that were asked for, and a stamp, read from its text, with the
point of time that lies the timeout back.
-/

namespace Jobyard

namespace QueueEntry

variable (e : QueueEntry)

theorem member?_encode (name : String) :
    (Document.encode e).member? name = [("fetched_at", Json.ofOption Json.ofInstant e.fetchedAt),
      ("queue", .str e.queue), ("job_id", .str e.jobId.text)].lookup name :=
  Entries.find?_ofList name _

theorem follow_queue : (Document.encode e).follow ["queue"] = .str e.queue := by
  have hmember : (Document.encode e).member? "queue" = some (.str e.queue) :=
    e.member?_encode "queue"
  rw [Json.follow_cons, hmember]
  rfl

theorem follow_fetchedAt :
    (Document.encode e).follow ["fetched_at"] = Json.ofOption Json.ofInstant e.fetchedAt := by
  have hmember : (Document.encode e).member? "fetched_at" =
      some (Json.ofOption Json.ofInstant e.fetchedAt) := e.member?_encode "fetched_at"
  rw [Json.follow_cons, hmember]
  rfl

theorem members_of_decode? {members : List (String × Json)} {e : QueueEntry}
    (h : Document.decode? (Json.obj members) = some e) :
    Entries.find? "queue" members = some (.str e.queue) ∧
      ((Entries.find? "fetched_at" members).getD .null).isNull = e.fetchedAt.isNone := by
  obtain ⟨r, hr, hrest⟩ := Option.bind_eq_some_iff.mp h
  cases hr
  obtain ⟨jobId, _, hrest⟩ := Option.bind_eq_some_iff.mp hrest
  obtain ⟨queue, hqueue, hrest⟩ := Option.bind_eq_some_iff.mp hrest
  obtain ⟨fetchedAt, hfetched, hentry⟩ := Option.bind_eq_some_iff.mp hrest
  cases hentry
  constructor
  · obtain ⟨value, hvalue, hread⟩ := Option.bind_eq_some_iff.mp hqueue
    have hmember : Entries.find? "queue" members = some value := hvalue
    rw [hmember]
    cases value with
    | str text =>
        cases hread
        rfl
    | _ => cases hread
  · have hfound : (Record.mk (["job_id", "queue", "fetched_at"].map fun name =>
        (name, Entries.find? name members))).find? "fetched_at" =
          Entries.find? "fetched_at" members := rfl
    unfold Record.optional at hfetched
    rw [hfound] at hfetched
    cases hmember : Entries.find? "fetched_at" members with
    | none =>
        rw [hmember] at hfetched
        cases hfetched
        rfl
    | some value =>
        rw [hmember] at hfetched
        cases value with
        | str text =>
            obtain ⟨t, _, ht⟩ := Option.map_eq_some_iff.mp hfetched
            cases ht
            rfl
        | null =>
            cases hfetched
            rfl
        | _ => cases hfetched

/-- The stamp of the entry, if it has one, is in a year of four digits and no leap second. -/
def Dated : Prop :=
  ∀ t, e.fetchedAt = some t → t.isLeap = false ∧ 0 ≤ t.date.year ∧ t.date.year ≤ 9999

end QueueEntry

namespace JobQueue

variable {queues others : List String} {cutoff : Instant} {d : Stored} {e : QueueEntry}

theorem any_same_iff {name : String} :
    ((queues.map Json.str).any fun value => value.same (.str name)) = true ↔ name ∈ queues := by
  simp [Json.same]

section Written

variable (hbody : d.body = Document.encode e)
include hbody

theorem accepts_ofQueues_written : (ofQueues queues).accepts d = true ↔
    d.id.collection = Document.collection QueueEntry ∧ e.queue ∈ queues := by
  have hall : (Query.of QueueEntry).accepts d = true ↔
      d.id.collection = Document.collection QueueEntry := by
    simp only [Query.accepts, Query.of, Query.ofCollection, List.all_nil, Bool.and_true,
      beq_iff_eq]
  rw [ofQueues, Query.accepts_filter, hall, hbody]
  change _ ∧ Condition.holds _ ((Document.encode e).follow ["queue"]) = true ↔ _
  rw [e.follow_queue]
  exact and_congr_right fun _ => any_same_iff

theorem accepts_pending_written : (pending queues).accepts d = true ↔
    d.id.collection = Document.collection QueueEntry ∧ e.queue ∈ queues ∧ e.fetchedAt = none := by
  rw [pending, Query.accepts_filter, accepts_ofQueues_written hbody, hbody, and_assoc]
  change _ ∧ _ ∧ Condition.holds _ ((Document.encode e).follow ["fetched_at"]) = true ↔ _
  rw [e.follow_fetchedAt]
  cases e.fetchedAt with
  | none => simp [Condition.holds, Json.ofOption, Json.isNull]
  | some t => simp [Condition.holds, Json.ofOption, Json.ofInstant, Json.isNull]

theorem accepts_stale_written (hdated : e.Dated) : (stale queues cutoff).accepts d = true ↔
    d.id.collection = Document.collection QueueEntry ∧ e.queue ∈ queues ∧
      ∃ t, e.fetchedAt = some t ∧ t.before cutoff = true := by
  rw [stale, Query.accepts_filter, accepts_ofQueues_written hbody, hbody, and_assoc]
  change _ ∧ _ ∧ Condition.holds _ ((Document.encode e).follow ["fetched_at"]) = true ↔ _
  rw [e.follow_fetchedAt]
  cases hfetched : e.fetchedAt with
  | none => simp [Condition.holds, Json.ofOption, Json.str?]
  | some t =>
      obtain ⟨-, hfirst, hlast⟩ := hdated t hfetched
      simp [Condition.holds, Json.ofOption, Json.ofInstant, Json.str?,
        Instant.parse?_text hfirst hlast]

end Written

section Names

variable (hnames : ∀ name, name ∈ queues ↔ name ∈ others)
include hnames

theorem accepts_ofQueues_congr (d : Stored) :
    (ofQueues queues).accepts d = (ofQueues others).accepts d := by
  have hany : ∀ found, ((queues.map Json.str).any fun value => value.same found) =
      (others.map Json.str).any fun value => value.same found := by
    intro found
    rw [Bool.eq_iff_iff]
    simp only [List.any_map, List.any_eq_true, Function.comp_apply, hnames]
  rw [Bool.eq_iff_iff, ofQueues, ofQueues, Query.accepts_filter, Query.accepts_filter]
  change _ ∧ List.any _ _ = true ↔ _ ∧ List.any _ _ = true
  rw [hany]

theorem query_pending_congr (m : Memory) :
    m.query (pending queues) = m.query (pending others) := by
  refine Memory.query_congr rfl rfl (fun d => ?_) rfl rfl rfl
  rw [Bool.eq_iff_iff, pending, pending, Query.accepts_filter, Query.accepts_filter,
    accepts_ofQueues_congr hnames]

theorem query_stale_congr (m : Memory) (cutoff : Instant) :
    m.query (stale queues cutoff) = m.query (stale others cutoff) := by
  refine Memory.query_congr rfl rfl (fun d => ?_) rfl rfl rfl
  rw [Bool.eq_iff_iff, stale, stale, Query.accepts_filter, Query.accepts_filter,
    accepts_ofQueues_congr hnames]

end Names

end JobQueue

end Jobyard
