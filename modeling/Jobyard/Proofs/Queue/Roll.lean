import Jobyard.Proofs.Queue.Search
import Jobyard.Proofs.Session.Legible
import Jobyard.Proofs.Store.Paging
import Jobyard.Queue.Listing

/-!
The roll of a queue: its entries in the order of their arrival, those that wait and those that are
stamped. Consumers and listings find the same waiting entries in the same order, and an entry that
is stamped, or loses its stamp, keeps its place.
-/

namespace Jobyard

/-- The document holds an entry, as an object with named members. -/
structure Stored.Holds (d : Stored) (e : QueueEntry) : Prop where
  collection : d.id.collection = Document.collection QueueEntry
  object : ∃ members, d.body = .obj members
  entry : Document.decode? d.body = some e

section Holds

variable {d : Stored} {e : QueueEntry} {queue : String}

theorem Stored.holds_of_encode (hcollection : d.id.collection = Document.collection QueueEntry)
    (hbody : d.body = Document.encode e) : d.Holds e where
  collection := hcollection
  object := ⟨_, hbody⟩
  entry := by rw [hbody, QueueEntry.decode?_encode]

theorem Stored.Holds.unique {other : QueueEntry} (h : d.Holds e) (hother : d.Holds other) :
    e = other :=
  Option.some.inj (h.entry.symm.trans hother.entry)

theorem Stored.Holds.follow_queue (h : d.Holds e) : d.body.follow ["queue"] = .str e.queue := by
  obtain ⟨members, hbody⟩ := h.object
  have hentry := h.entry
  rw [hbody] at hentry
  have hmember : d.body.member? "queue" = some (.str e.queue) := by
    rw [hbody]
    exact (QueueEntry.members_of_decode? hentry).1
  rw [Json.follow_cons, hmember]
  rfl

theorem Stored.Holds.isNull_fetchedAt (h : d.Holds e) :
    (d.body.follow ["fetched_at"]).isNull = e.fetchedAt.isNone := by
  obtain ⟨members, hbody⟩ := h.object
  have hentry := h.entry
  rw [hbody] at hentry ⊢
  rw [← (QueueEntry.members_of_decode? hentry).2, Json.follow_cons, Json.member?]
  cases Entries.find? "fetched_at" members <;> rfl

namespace QueueListing

theorem accepts_ofQueue_iff : (ofQueue queue).accepts d = true ↔
    d.id.collection = Document.collection QueueEntry ∧
      (d.body.follow ["queue"]).same (.str queue) = true := by
  have hall : (Query.of QueueEntry).accepts d = true ↔
      d.id.collection = Document.collection QueueEntry := by
    simp only [Query.accepts, Query.of, Query.ofCollection, List.all_nil, Bool.and_true,
      beq_iff_eq]
  rw [ofQueue, Query.accepts_filter, hall]
  rfl

theorem accepts_ofQueue (h : d.Holds e) :
    (ofQueue queue).accepts d = true ↔ e.queue = queue := by
  rw [accepts_ofQueue_iff, h.follow_queue]
  simp [Json.same, h.collection]

theorem accepts_enqueued (h : d.Holds e) :
    (enqueued queue).accepts d = true ↔ e.queue = queue ∧ e.fetchedAt.isNone = true := by
  rw [enqueued, Query.accepts_filter, accepts_ofQueue h, ← h.isNull_fetchedAt]
  rfl

theorem accepts_fetched (h : d.Holds e) :
    (fetched queue).accepts d = true ↔ e.queue = queue ∧ e.fetchedAt.isSome = true := by
  rw [fetched, Query.accepts_filter, accepts_ofQueue h, ← Option.not_isNone, ← h.isNull_fetchedAt]
  rfl

theorem holds_of_accepts {m : Memory} (hlegible : m.Legible QueueEntry)
    (hfound : m.find? d.id = some d) (haccepts : (ofQueue queue).accepts d = true) :
    ∃ e, d.Holds e ∧ e.queue = queue := by
  obtain ⟨hcollection, hsame⟩ := accepts_ofQueue_iff.mp haccepts
  obtain ⟨e, hentry⟩ := Option.isSome_iff_exists.mp (hlegible d.id d hfound hcollection)
  cases hbody : d.body with
  | obj members =>
      have hholds : d.Holds e := ⟨hcollection, ⟨members, hbody⟩, hentry⟩
      exact ⟨e, hholds, (accepts_ofQueue hholds).mp haccepts⟩
  | _ =>
      -- Only an object has a member that names the queue.
      rw [hbody] at hsame
      simp [Json.follow_cons, Json.member?, Json.same] at hsame

end QueueListing

/-- Consumers of one queue look for the entries that are listed as waiting. -/
theorem JobQueue.query_pending_singleton (m : Memory) (queue : String) :
    m.query (pending [queue]) = m.query (QueueListing.enqueued queue) := by
  refine Memory.query_congr rfl rfl (fun d => ?_) rfl rfl rfl
  have hsame : ∀ found : Json, (Json.str queue).same found = found.same (.str queue) := by
    intro found
    cases found with
    | str text => simp [Json.same, Bool.beq_comm]
    | _ => simp [Json.same]
  rw [Bool.eq_iff_iff, pending, QueueListing.enqueued, Query.accepts_filter, Query.accepts_filter,
    ofQueues, QueueListing.ofQueue, Query.accepts_filter, Query.accepts_filter]
  simp only [Filter.accepts, Condition.holds, List.map_cons, List.map_nil, List.any_cons,
    List.any_nil, Bool.or_false, hsame]

end Holds

/-- What stays of an entry as long as it is there. -/
structure Place where
  id : DocId
  sequence : Nat
  jobId : JobId

namespace Place

def of? (d : Stored) : Option Place :=
  (Document.decode? d.body : Option QueueEntry).map fun e => ⟨d.id, d.sequence, e.jobId⟩

theorem of?_of_holds {d : Stored} {e : QueueEntry} (h : d.Holds e) :
    of? d = some ⟨d.id, d.sequence, e.jobId⟩ := by
  rw [of?, h.entry]
  rfl

theorem exists_entry {d : Stored} {p : Place} (h : of? d = some p) :
    ∃ e : QueueEntry, Document.decode? d.body = some e ∧ p = ⟨d.id, d.sequence, e.jobId⟩ := by
  obtain ⟨e, hentry, hplace⟩ := Option.map_eq_some_iff.mp h
  exact ⟨e, hentry, hplace.symm⟩

theorem map_of?_eq {found : List Stored} (h : ∀ d ∈ found, (of? d).isSome) :
    found.map of? = (found.filterMap of?).map some := by
  induction found with
  | nil => rfl
  | cons d rest ih =>
      obtain ⟨p, hp⟩ := Option.isSome_iff_exists.mp (h d List.mem_cons_self)
      rw [List.map_cons, List.filterMap_cons_some hp, List.map_cons, hp,
        ih fun other hother => h other (List.mem_cons_of_mem d hother)]

theorem sorted_filterMap {found : List Stored}
    (h : found.Pairwise fun a b => a.sequence < b.sequence) :
    (found.filterMap of?).Pairwise fun a b => a.sequence < b.sequence := by
  refine List.Pairwise.filterMap of? (fun a b hlt p hp p' hp' => ?_) h
  obtain ⟨_, _, rfl⟩ := exists_entry hp
  obtain ⟨_, _, rfl⟩ := exists_entry hp'
  exact hlt

theorem nodup_of_sorted {places : List Place}
    (h : places.Pairwise fun a b => a.sequence < b.sequence) : places.Nodup := by
  refine h.imp fun hlt hsame => ?_
  rw [hsame] at hlt
  exact Nat.lt_irrefl _ hlt

theorem eq_of_sorted {places others : List Place}
    (hplaces : places.Pairwise fun a b => a.sequence < b.sequence)
    (hothers : others.Pairwise fun a b => a.sequence < b.sequence)
    (hmem : ∀ p, p ∈ places ↔ p ∈ others) : places = others :=
  List.Perm.eq_of_pairwise (fun _ _ _ _ hab hba => absurd hab (Nat.lt_asymm hba)) hplaces hothers
    ((List.perm_ext_iff_of_nodup (nodup_of_sorted hplaces) (nodup_of_sorted hothers)).mpr hmem)

theorem mapM_decode {found : List Stored} {places : List Place}
    (h : found.map of? = places.map some) :
    ∃ gathered : List (DocId × QueueEntry),
      (found.mapM fun d => (d.decode QueueEntry).map fun e => (d.id, e)) = .ok gathered ∧
        gathered.map (·.2.jobId) = places.map (·.jobId) := by
  induction found generalizing places with
  | nil =>
      cases places with
      | nil => exact ⟨[], rfl, rfl⟩
      | cons p rest => cases h
  | cons d rest ih =>
      cases places with
      | nil => cases h
      | cons p others =>
          obtain ⟨hfirst, hrest⟩ := List.cons.inj h
          obtain ⟨e, hentry, rfl⟩ := exists_entry hfirst
          obtain ⟨gathered, hgathered, hjobs⟩ := ih hrest
          refine ⟨(d.id, e) :: gathered, ?_, by rw [List.map_cons, hjobs, List.map_cons]⟩
          rw [List.mapM_cons, hgathered, Stored.decode, hentry]
          rfl

end Place

namespace Memory

/-- The entries of a queue in the order of their arrival, and the stamp that each of them has. -/
structure Roll (m : Memory) (queue : String) (roll : List Place)
    (stamp : DocId → Option Instant) : Prop where
  sound : ∀ p ∈ roll, ∃ d, m.find? p.id = some d ∧ d.sequence = p.sequence ∧
    d.Holds ⟨p.jobId, queue, stamp p.id⟩
  complete : ∀ d e, m.find? d.id = some d → d.Holds e → e.queue = queue →
    ⟨d.id, d.sequence, e.jobId⟩ ∈ roll
  sorted : roll.Pairwise fun a b => a.sequence < b.sequence

variable {m next : Memory} {queue : String} {roll : List Place} {stamp : DocId → Option Instant}

theorem Roll.eq_of_id (h : m.Roll queue roll stamp) {p other : Place} (hp : p ∈ roll)
    (hother : other ∈ roll) (hid : other.id = p.id) : other = p := by
  obtain ⟨d, hfound, hsequence, hholds⟩ := h.sound p hp
  obtain ⟨d', hfound', hsequence', hholds'⟩ := h.sound other hother
  rw [hid, hfound] at hfound'
  cases hfound'
  have hjob := congrArg QueueEntry.jobId (hholds'.unique hholds)
  obtain ⟨id, sequence, jobId⟩ := p
  obtain ⟨id', sequence', jobId'⟩ := other
  simp only at hid hsequence hsequence' hjob
  rw [hid, ← hsequence, ← hsequence', hjob]

theorem Roll.nodup_ids (h : m.Roll queue roll stamp) : (roll.map (·.id)).Nodup := by
  refine List.pairwise_map.mpr (h.sorted.imp_of_mem fun ha hb hlt hid => ?_)
  rw [h.eq_of_id ha hb hid.symm] at hlt
  exact Nat.lt_irrefl _ hlt

theorem exists_roll (hnumbered : m.Numbered) (hlegible : m.Legible QueueEntry) (queue : String) :
    ∃ roll stamp, m.Roll queue roll stamp := by
  have hpaged := hnumbered.paged (q := QueueListing.ofQueue queue) rfl
  generalize (m.accepted (QueueListing.ofQueue queue)).mergeSort _ = whole at hpaged
  let stamp (id : DocId) : Option Instant :=
    ((m.find? id).bind fun d => (Document.decode? d.body : Option QueueEntry)).bind (·.fetchedAt)
  refine ⟨whole.filterMap Place.of?, stamp, fun p hp => ?_, fun d e hfound hholds hqueue => ?_, ?_⟩
  · obtain ⟨d, hd, hplace⟩ := List.mem_filterMap.mp hp
    obtain ⟨hfound, hmatches⟩ := (hpaged.mem_iff d).mp hd
    obtain ⟨e, hholds, hqueue⟩ :=
      QueueListing.holds_of_accepts hlegible hfound (Query.accepts_iff.mpr hmatches)
    rw [Place.of?_of_holds hholds] at hplace
    cases hplace
    refine ⟨d, hfound, rfl, ?_⟩
    have hstamp : stamp d.id = e.fetchedAt := by
      simp only [stamp, hfound, Option.bind_some, hholds.entry]
    rw [hstamp, ← hqueue]
    exact hholds
  · refine List.mem_filterMap.mpr ⟨d, (hpaged.mem_iff d).mpr ⟨hfound, ?_⟩,
      Place.of?_of_holds hholds⟩
    exact Query.accepts_iff.mp ((QueueListing.accepts_ofQueue hholds).mpr hqueue)
  · exact Place.sorted_filterMap hpaged.ordered

structure Sorts (q : Query) (queue : String) (keeps : Option Instant → Bool) : Prop where
  order : q.order = .oldestFirst
  ofQueue : ∀ d, q.accepts d = true → (QueueListing.ofQueue queue).accepts d = true
  accepts_iff : ∀ d e, d.Holds e →
    (q.accepts d = true ↔ e.queue = queue ∧ keeps e.fetchedAt = true)

section Listed

variable (h : m.Roll queue roll stamp) (hlegible : m.Legible QueueEntry) {q : Query}
  {whole : List Stored} (hpaged : m.Paged q whole) {keeps : Option Instant → Bool}
  (hsorts : Sorts q queue keeps)
include h hlegible hpaged hsorts

theorem Roll.exists_place {d : Stored} (hd : d ∈ whole) :
    ∃ p ∈ roll, keeps (stamp p.id) = true ∧ Place.of? d = some p := by
  obtain ⟨hfound, hmatches⟩ := (hpaged.mem_iff d).mp hd
  have haccepts := Query.accepts_iff.mpr hmatches
  obtain ⟨e, hholds, hqueue⟩ :=
    QueueListing.holds_of_accepts hlegible hfound (hsorts.ofQueue d haccepts)
  have hp := h.complete d e hfound hholds hqueue
  refine ⟨_, hp, ?_, Place.of?_of_holds hholds⟩
  obtain ⟨d', hfound', _, hholds'⟩ := h.sound _ hp
  rw [hfound] at hfound'
  cases hfound'
  have hkept := ((hsorts.accepts_iff d e hholds).mp haccepts).2
  rw [hholds.unique hholds'] at hkept
  exact hkept

theorem Roll.map_place (hkeyed : m.Keyed) :
    whole.map Place.of? = (roll.filter fun p => keeps (stamp p.id)).map some := by
  have hordered := hpaged.ordered
  rw [hsorts.order] at hordered
  rw [Place.map_of?_eq fun d hd => ?_]
  · refine congrArg (List.map some) (Place.eq_of_sorted (Place.sorted_filterMap hordered)
      (h.sorted.filter _) fun p => ?_)
    rw [List.mem_filterMap, List.mem_filter]
    constructor
    · rintro ⟨d, hd, hplace⟩
      obtain ⟨other, hother, hkept, hof⟩ := h.exists_place hlegible hpaged hsorts hd
      rw [hplace] at hof
      cases hof
      exact ⟨hother, hkept⟩
    · rintro ⟨hp, hkept⟩
      obtain ⟨d, hfound, hsequence, hholds⟩ := h.sound p hp
      have hid : d.id = p.id := hkeyed p.id d hfound
      refine ⟨d, (hpaged.mem_iff d).mpr ⟨hid.symm ▸ hfound, ?_⟩, ?_⟩
      · exact Query.accepts_iff.mp ((hsorts.accepts_iff d _ hholds).mpr ⟨rfl, hkept⟩)
      · rw [Place.of?_of_holds hholds, hid, hsequence]
  · obtain ⟨p, _, _, hof⟩ := h.exists_place hlegible hpaged hsorts hd
    exact Option.isSome_iff_exists.mpr ⟨p, hof⟩

end Listed

theorem sorts_enqueued (queue : String) :
    Sorts (QueueListing.enqueued queue) queue Option.isNone where
  order := rfl
  ofQueue _ h := (Query.accepts_filter.mp h).1
  accepts_iff _ _ h := QueueListing.accepts_enqueued h

theorem sorts_fetched (queue : String) :
    Sorts (QueueListing.fetched queue) queue Option.isSome where
  order := rfl
  ofQueue _ h := (Query.accepts_filter.mp h).1
  accepts_iff _ _ h := QueueListing.accepts_fetched h

def restamp (stamp : DocId → Option Instant) (id : DocId) (time : Option Instant) :
    DocId → Option Instant :=
  fun other => if other = id then time else stamp other

theorem Roll.restamp (h : m.Roll queue roll stamp) {p : Place} (hp : p ∈ roll) {d : Stored}
    {time : Option Instant} (hnow : next.find? p.id = some d)
    (hsequence : d.sequence = p.sequence) (hholds : d.Holds ⟨p.jobId, queue, time⟩)
    (hothers : ∀ other, other ≠ p.id → next.find? other = m.find? other) :
    next.Roll queue roll (Memory.restamp stamp p.id time) where
  sound other hother := by
    by_cases hid : other.id = p.id
    · cases h.eq_of_id hp hother hid
      refine ⟨d, hnow, hsequence, ?_⟩
      rw [Memory.restamp, if_pos rfl]
      exact hholds
    · rw [hothers other.id hid, Memory.restamp, if_neg hid]
      exact h.sound other hother
  complete other e hfound hother hqueue := by
    by_cases hid : other.id = p.id
    · rw [hid, hnow] at hfound
      cases hfound
      rw [hother.unique hholds, hid, hsequence]
      exact hp
    · rw [hothers other.id hid] at hfound
      exact h.complete other e hfound hother hqueue
  sorted := h.sorted

theorem Roll.filter_restamp (h : m.Roll queue roll stamp) {p : Place} {rest : List Place}
    (hwaiting : (roll.filter fun p => (stamp p.id).isNone) = p :: rest) (time : Instant) :
    (roll.filter fun other => (Memory.restamp stamp p.id (some time) other.id).isNone) = rest := by
  have hnodup : ((p :: rest).map (·.id)).Nodup := by
    rw [← hwaiting]
    exact h.nodup_ids.sublist (List.filter_sublist.map _)
  have hsplit : (roll.filter fun other =>
      (Memory.restamp stamp p.id (some time) other.id).isNone) =
        (p :: rest).filter fun other => other.id ≠ p.id := by
    rw [← hwaiting, List.filter_filter]
    refine List.filter_congr fun other _ => ?_
    unfold Memory.restamp
    by_cases hid : other.id = p.id
    · simp [hid]
    · simp [hid]
  rw [hsplit, List.filter_cons_of_neg (by simp)]
  refine List.filter_eq_self.mpr fun other hother => decide_eq_true fun hid => ?_
  exact (List.nodup_cons.mp hnodup).1 (List.mem_map.mpr ⟨other, hother, hid⟩)

end Memory

end Jobyard
