import Jobyard.Proofs.Queue.Drain
import Jobyard.Proofs.Store.Arrival

/-!
Which entry a pass leases. In a calm world it is the oldest of the entries that wait, else the
oldest of those whose timeout has passed; nothing else in the store changes.
-/

namespace Jobyard

namespace QueueEntry

def Waits (e : QueueEntry) : Prop := e.fetchedAt = none

def Overdue (timeout : Duration) (now : Instant) (e : QueueEntry) : Prop :=
  ∃ t, e.fetchedAt = some t ∧ t.elapsed + timeout.nanos < now.elapsed

end QueueEntry

namespace Memory

variable {m : Memory} {queues : List String} {query : Query} {found : List Stored}

/-- Every entry of a queue is stored as it was written. -/
def Written (m : Memory) : Prop :=
  ∀ d, m.find? d.id = some d → d.id.collection = Document.collection QueueEntry →
    ∃ e : QueueEntry, d.body = Document.encode e ∧ e.Dated

structure Offers (m : Memory) (queues : List String) (d : Stored) (e : QueueEntry) : Prop where
  found : m.find? d.id = some d
  collection : d.id.collection = Document.collection QueueEntry
  body : d.body = Document.encode e
  queue : e.queue ∈ queues

structure Oldest (m : Memory) (queues : List String) (P : QueueEntry → Prop) (d : Stored)
    (e : QueueEntry) : Prop where
  offered : m.Offers queues d e
  holds : P e
  first : ∀ other entry, m.Offers queues other entry → P entry → other.id ≠ d.id →
    d.sequence < other.sequence

inductive Picks (m : Memory) (queues : List String) (timeout : Duration) (now : Instant) :
    Option (Stored × QueueEntry) → Prop
  | waiting {d : Stored} {e : QueueEntry} (h : m.Oldest queues QueueEntry.Waits d e) :
      Picks m queues timeout now (some (d, e))
  | overdue {d : Stored} {e : QueueEntry}
      (hnone : ∀ other entry, m.Offers queues other entry → ¬ entry.Waits)
      (h : m.Oldest queues (QueueEntry.Overdue timeout now) d e) :
      Picks m queues timeout now (some (d, e))
  | nothing (hnone : ∀ other entry, m.Offers queues other entry →
      ¬ entry.Waits ∧ ¬ entry.Overdue timeout now) : Picks m queues timeout now none

def stampEntry (m : Memory) (d : Stored) (e : QueueEntry) (now : Instant) : Memory :=
  { m with documents := m.documents.insert d.id { d with
      body := Document.encode (JobQueue.stamped e now), etag := d.etag + 1 } }

theorem Offers.decode? {d : Stored} {e : QueueEntry} (h : m.Offers queues d e) :
    Document.decode? d.body = some e := by
  rw [h.body]
  exact e.decode?_encode

theorem commit_claimBatch {d : Stored} (hfound : m.find? d.id = some d) (e : QueueEntry)
    (now : Instant) :
    m.commit (JobQueue.claimBatch d.id d e now) = .ok (m.stampEntry d e now) :=
  commit_put_eq hfound _ _

section Found

variable (hwritten : m.Written)
include hwritten

theorem Written.exists_entry (hcollection : query.collection = Document.collection QueueEntry)
    {d : Stored} (hfound : m.find? d.id = some d) (haccepts : query.accepts d = true) :
    ∃ e : QueueEntry, d.body = Document.encode e ∧ e.Dated :=
  hwritten d hfound ((Query.collection_of_accepts haccepts).trans hcollection)

theorem Written.mem_pending_iff (hlists : m.Lists (JobQueue.pending queues) found) (d : Stored) :
    d ∈ found ↔ ∃ e, m.Offers queues d e ∧ e.Waits := by
  rw [hlists.mem_iff]
  constructor
  · rintro ⟨hfound, haccepts⟩
    obtain ⟨e, hbody, _⟩ := hwritten.exists_entry rfl hfound haccepts
    obtain ⟨hcollection, hqueue, hwaits⟩ := (JobQueue.accepts_pending_written hbody).mp haccepts
    exact ⟨e, ⟨hfound, hcollection, hbody, hqueue⟩, hwaits⟩
  · rintro ⟨e, hoffers, hwaits⟩
    exact ⟨hoffers.found, (JobQueue.accepts_pending_written hoffers.body).mpr
      ⟨hoffers.collection, hoffers.queue, hwaits⟩⟩

theorem Written.dated {d : Stored} {e : QueueEntry} (hoffers : m.Offers queues d e) : e.Dated := by
  obtain ⟨other, hbody, hdated⟩ := hwritten d hoffers.found hoffers.collection
  have hsame : Document.decode? d.body = some other := by
    rw [hbody]
    exact other.decode?_encode
  rw [hoffers.decode?] at hsame
  cases hsame
  exact hdated

theorem Written.mem_stale_iff {cutoff : Instant}
    (hlists : m.Lists (JobQueue.stale queues cutoff) found) (d : Stored) :
    d ∈ found ↔
      ∃ e, m.Offers queues d e ∧ ∃ t, e.fetchedAt = some t ∧ t.before cutoff = true := by
  rw [hlists.mem_iff]
  constructor
  · rintro ⟨hfound, haccepts⟩
    obtain ⟨e, hbody, hdated⟩ := hwritten.exists_entry rfl hfound haccepts
    obtain ⟨hcollection, hqueue, hstale⟩ :=
      (JobQueue.accepts_stale_written hbody hdated).mp haccepts
    exact ⟨e, ⟨hfound, hcollection, hbody, hqueue⟩, hstale⟩
  · rintro ⟨e, hoffers, hstale⟩
    exact ⟨hoffers.found, (JobQueue.accepts_stale_written hoffers.body
      (hwritten.dated hoffers)).mpr ⟨hoffers.collection, hoffers.queue, hstale⟩⟩

end Found

end Memory

namespace Simulation.World

open JobQueue

variable {w after : World} {q : JobQueue} {found : List Stored}

/-- What a pass ends with: a lease on the entry that was picked, which was stamped, or nothing. -/
inductive Claims (w : World) (q : JobQueue) :
    Option (Stored × QueueEntry) → Except StoreError (Option Lease) × World → Prop
  | nothing : Claims w q none (.ok none, w)
  | leased {d : Stored} {e : QueueEntry} {after : World}
      (hproceeds : Proceeds w after q.store ((w.memory q.store).stampEntry d e w.clock)) :
      Claims w q (some (d, e))
        (.ok (some (Lease.ofEntry q.store d.id (stamped e w.clock))), after)

def canClaim (w : World) (q : JobQueue) (d : Stored) : Bool :=
  (Document.decode? d.body : Option QueueEntry).any (·.isClaimable w.clock q.invisibility)

theorem run_claimAny (hcalm : w.Calm)
    (hfound : ∀ d ∈ found, (w.memory q.store).find? d.id = some d)
    (hread : ∀ d ∈ found, (Document.decode? d.body : Option QueueEntry).isSome) :
    (found.find? (canClaim w q) = none →
      w.run (q.claimAny (found.map (·.id))).run = (.ok none, w)) ∧
    ∀ d e, found.find? (canClaim w q) = some d → Document.decode? d.body = some e →
      Claims w q (some (d, e)) (w.run (q.claimAny (found.map (·.id))).run) := by
  induction found with
  | nil => exact ⟨fun _ => rfl, fun _ _ h => nomatch h⟩
  | cons first rest ih =>
      have hhere := hfound first List.mem_cons_self
      obtain ⟨entry, hdecode⟩ := Option.isSome_iff_exists.mp (hread first List.mem_cons_self)
      have hcan : canClaim w q first = entry.isClaimable w.clock q.invisibility := by
        unfold canClaim
        rw [hdecode]
        rfl
      obtain ⟨hnone, hsome⟩ := ih (fun d hd => hfound d (List.mem_cons_of_mem first hd))
        fun d hd => hread d (List.mem_cons_of_mem first hd)
      rw [List.find?_cons, List.map_cons, claimAny, hcan]
      cases hclaimable : entry.isClaimable w.clock q.invisibility with
      | false =>
          rw [run_action_bind (run_claim_refused hcalm hhere hdecode hclaimable)]
          exact ⟨hnone, hsome⟩
      | true =>
          obtain ⟨after, hrun, hproceeds⟩ := run_claim_claimable hcalm hhere hdecode hclaimable
            (Memory.commit_claimBatch hhere entry w.clock)
          refine ⟨(nomatch ·), fun d e hd he => ?_⟩
          cases hd
          rw [hdecode] at he
          cases he
          rw [run_action_bind hrun]
          exact .leased hproceeds

theorem run_claimFirst (hcalm : w.Calm) {query : Query}
    (hquery : (w.memory q.store).query query = .ok found)
    (hfound : ∀ d ∈ found, (w.memory q.store).find? d.id = some d)
    (hread : ∀ d ∈ found, (Document.decode? d.body : Option QueueEntry).isSome) :
    (found.find? (canClaim w q) = none → w.run (q.claimFirst query).run = (.ok none, w)) ∧
    ∀ d e, found.find? (canClaim w q) = some d → Document.decode? d.body = some e →
      Claims w q (some (d, e)) (w.run (q.claimFirst query).run) := by
  obtain ⟨gathered, next, hstart, hids⟩ := Work.start_gather_readable
    (s := Session.empty q.store true) (Session.mirrors_of_empty rfl) hfound hread
  have hrun : w.run (Work.alone q.store (Work.query QueueEntry query)).run =
      (.ok gathered, w) := by
    rw [run_query hcalm hquery, hstart]
    rfl
  unfold claimFirst
  rw [run_action_bind hrun, hids]
  exact run_claimAny hcalm hfound hread

theorem run_claimFirst_congr (hcalm : w.Calm) {first second : Query}
    (hfirst : (w.memory q.store).query first = .ok found)
    (hsecond : (w.memory q.store).query second = .ok found) :
    w.run (q.claimFirst first).run = w.run (q.claimFirst second).run := by
  have hsame : w.run (Work.alone q.store (Work.query QueueEntry first)).run =
      w.run (Work.alone q.store (Work.query QueueEntry second)).run :=
    (run_query hcalm hfirst).trans (run_query hcalm hsecond).symm
  unfold claimFirst
  cases hresult : w.run (Work.alone q.store (Work.query QueueEntry second)).run with
  | mk result after =>
      cases result with
      | error e => rw [run_action_bind_error (hsame.trans hresult), run_action_bind_error hresult]
      | ok gathered => rw [run_action_bind (hsame.trans hresult), run_action_bind hresult]

/-- Before the calendar has lasted for a timeout, no lease is too old. -/
theorem not_overdue_of_minus? {queues : List String} (hwritten : (w.memory q.store).Written)
    {timeout : Duration} (hnone : w.clock.minus? timeout.toSpan = none) {d : Stored}
    {e : QueueEntry} (hoffers : (w.memory q.store).Offers queues d e) :
    ¬ e.Overdue timeout w.clock := by
  rintro ⟨t, hfetched, hlong⟩
  obtain ⟨hleap, -, -⟩ := hwritten.dated hoffers t hfetched
  obtain ⟨earlier, hearlier, -⟩ := Instant.before_minus? hleap
    timeout.nanos_toSpan_nonneg ((timeout.toSpan_lt_iff t w.clock).mpr hlong)
  rw [hearlier] at hnone
  cases hnone

theorem Claims.tryClaim {queues : List String} {d : Stored} {e : QueueEntry}
    (h : Claims w q (some (d, e)) (w.run (q.claimFirst (pending queues)).run)) :
    w.run (q.tryClaim queues).run = w.run (q.claimFirst (pending queues)).run := by
  generalize hrun : w.run (q.claimFirst (pending queues)).run = outcome at h ⊢
  cases h with
  | leased _ => exact run_tryClaim_some hrun

section Oldest

variable {queues : List String} (hcalm : w.Calm) (hnumbered : (w.memory q.store).Numbered)
include hcalm hnumbered

/-- A query that admits all entries with some property leads to the oldest one that has it, if
what it admits besides cannot be claimed. -/
theorem claims_oldest {query : Query} {admitted P : QueueEntry → Prop}
    (hquery : (w.memory q.store).query query = .ok found)
    (hlists : (w.memory q.store).Lists query found)
    (hmem : ∀ d, d ∈ found ↔ ∃ e, (w.memory q.store).Offers queues d e ∧ admitted e)
    (hclaimable : ∀ d e, (w.memory q.store).Offers queues d e →
      (P e ↔ admitted e ∧ e.isClaimable w.clock q.invisibility = true)) :
    (∃ d e, (w.memory q.store).Oldest queues P d e ∧
      Claims w q (some (d, e)) (w.run (q.claimFirst query).run)) ∨
    ((∀ d e, (w.memory q.store).Offers queues d e → ¬ P e) ∧
      w.run (q.claimFirst query).run = (.ok none, w)) := by
  have hcan : ∀ d e, (w.memory q.store).Offers queues d e →
      canClaim w q d = e.isClaimable w.clock q.invisibility := by
    intro d e hoffers
    unfold canClaim
    rw [hoffers.decode?]
    rfl
  have hamong : ∀ d e, (w.memory q.store).Offers queues d e → P e →
      d ∈ found ∧ canClaim w q d = true := by
    intro d e hoffers hP
    obtain ⟨hadmitted, hmay⟩ := (hclaimable d e hoffers).mp hP
    exact ⟨(hmem d).mpr ⟨e, hoffers, hadmitted⟩, (hcan d e hoffers).trans hmay⟩
  have hread : ∀ d ∈ found, (Document.decode? d.body : Option QueueEntry).isSome := by
    intro d hd
    obtain ⟨e, hoffers, _⟩ := (hmem d).mp hd
    rw [hoffers.decode?]
    rfl
  obtain ⟨hnone, hsome⟩ := run_claimFirst hcalm hquery
    (fun d hd => ((hlists.mem_iff d).mp hd).1) hread
  cases hfirst : found.find? (canClaim w q) with
  | none =>
      refine .inr ⟨fun d e hoffers hP => ?_, hnone hfirst⟩
      obtain ⟨hd, hmay⟩ := hamong d e hoffers hP
      exact List.find?_eq_none.mp hfirst d hd hmay
  | some d =>
      obtain ⟨hd, hmay, hleast⟩ := hlists.oldest hfirst
      obtain ⟨e, hoffers, hadmitted⟩ := (hmem d).mp hd
      have hP : P e := (hclaimable d e hoffers).mpr
        ⟨hadmitted, (hcan d e hoffers).symm.trans hmay⟩
      refine .inl ⟨d, e, ⟨hoffers, hP, fun other entry hother hQ hne => ?_⟩,
        hsome d e hfirst hoffers.decode?⟩
      obtain ⟨hfound, hcanOther⟩ := hamong other entry hother hQ
      refine Nat.lt_of_le_of_ne (hleast other hfound hcanOther) fun hsame => hne ?_
      exact hnumbered.distinct _ _ other d hother.found hoffers.found hsame.symm

variable (hwritten : (w.memory q.store).Written)
include hwritten

theorem claims_waiting (queues : List String) :
    (∃ d e, (w.memory q.store).Oldest queues QueueEntry.Waits d e ∧
      Claims w q (some (d, e)) (w.run (q.claimFirst (pending queues)).run)) ∨
    ((∀ d e, (w.memory q.store).Offers queues d e → ¬ e.Waits) ∧
      w.run (q.claimFirst (pending queues)).run = (.ok none, w)) := by
  obtain ⟨found, hquery, hlists⟩ :=
    Memory.exists_lists (q := pending queues) hnumbered.keyed rfl ⟨rfl, rfl⟩ rfl
  refine claims_oldest hcalm hnumbered hquery hlists (hwritten.mem_pending_iff hlists)
    fun d e _ => ⟨fun hwaits => ⟨hwaits, ?_⟩, And.left⟩
  exact QueueEntry.isClaimable_of_waiting hwaits _ _

variable {timeout : Duration} (htimeout : q.invisibility = timeout.toSpan)
include htimeout

theorem claims_overdue {cutoff : Instant} (hcutoff : w.clock.minus? q.invisibility = some cutoff) :
    (∃ d e, (w.memory q.store).Oldest queues (QueueEntry.Overdue timeout w.clock) d e ∧
      Claims w q (some (d, e)) (w.run (q.claimFirst (stale queues cutoff)).run)) ∨
    ((∀ d e, (w.memory q.store).Offers queues d e → ¬ e.Overdue timeout w.clock) ∧
      w.run (q.claimFirst (stale queues cutoff)).run = (.ok none, w)) := by
  obtain ⟨found, hquery, hlists⟩ :=
    Memory.exists_lists (q := stale queues cutoff) hnumbered.keyed rfl ⟨rfl, rfl⟩ rfl
  refine claims_oldest hcalm hnumbered hquery hlists (hwritten.mem_stale_iff hlists)
    fun d e hoffers => ?_
  rw [htimeout] at hcutoff ⊢
  constructor
  · rintro ⟨t, hfetched, hlong⟩
    obtain ⟨hleap, -, -⟩ := hwritten.dated hoffers t hfetched
    obtain ⟨earlier, hearlier, hbefore⟩ := Instant.before_minus? hleap
      timeout.nanos_toSpan_nonneg ((timeout.toSpan_lt_iff t w.clock).mpr hlong)
    rw [hcutoff] at hearlier
    cases hearlier
    exact ⟨⟨t, hfetched, hbefore⟩, (QueueEntry.isClaimable_iff_of_fetched hfetched hleap _ _).mpr
      hlong⟩
  · rintro ⟨⟨t, hfetched, _⟩, hmay⟩
    obtain ⟨hleap, -, -⟩ := hwritten.dated hoffers t hfetched
    exact ⟨t, hfetched, (QueueEntry.isClaimable_iff_of_fetched hfetched hleap _ _).mp hmay⟩

theorem claims_tryClaim (queues : List String) :
    ∃ picked, (w.memory q.store).Picks queues timeout w.clock picked ∧
      Claims w q picked (w.run (q.tryClaim queues).run) := by
  rcases claims_waiting hcalm hnumbered hwritten queues with
    ⟨d, e, holdest, hclaims⟩ | ⟨hnone, hquiet⟩
  · exact ⟨some (d, e), .waiting holdest, hclaims.tryClaim.symm ▸ hclaims⟩
  · rw [run_tryClaim_none hquiet]
    cases hcutoff : w.clock.minus? q.invisibility with
    | none =>
        rw [htimeout] at hcutoff
        exact ⟨none, .nothing fun d e hoffers => ⟨hnone d e hoffers,
          not_overdue_of_minus? hwritten hcutoff hoffers⟩, .nothing⟩
    | some cutoff =>
        rcases claims_overdue hcalm hnumbered hwritten htimeout hcutoff with
          ⟨d, e, holdest, hclaims⟩ | ⟨hnever, hidle⟩
        · exact ⟨some (d, e), .overdue hnone holdest, hclaims⟩
        · refine ⟨none, .nothing fun d e hoffers => ⟨hnone d e hoffers, hnever d e hoffers⟩, ?_⟩
          simp only [hidle]
          exact .nothing

end Oldest

theorem run_tryClaim_congr (hcalm : w.Calm) (hnumbered : (w.memory q.store).Numbered)
    (hwritten : (w.memory q.store).Written) {queues others : List String}
    (hnames : ∀ name, name ∈ others ↔ name ∈ queues) :
    w.run (q.tryClaim others).run = w.run (q.tryClaim queues).run := by
  have hwaiting : w.run (q.claimFirst (pending others)).run =
      w.run (q.claimFirst (pending queues)).run :=
    run_claimFirst_congr hcalm ((query_pending_congr hnames _).trans rfl) rfl
  rcases claims_waiting hcalm hnumbered hwritten queues with ⟨d, e, _, hclaims⟩ | ⟨_, hquiet⟩
  · rw [hclaims.tryClaim, Claims.tryClaim (hwaiting ▸ hclaims), hwaiting]
  · rw [run_tryClaim_none hquiet, run_tryClaim_none (hwaiting.trans hquiet)]
    cases w.clock.minus? q.invisibility with
    | none => rfl
    | some cutoff =>
        exact run_claimFirst_congr hcalm ((query_stale_congr hnames _ cutoff).trans rfl) rfl

/-- A pass in a calm world leases the oldest waiting entry of the queues, else the oldest one whose
timeout has passed, however long that timeout is, and nothing exactly when there is neither. The
entry gets its stamp and its next version, and nothing else in any store changes. The names of the
queues count as a set. -/
theorem oldest_claimable_leased (hcalm : w.Calm) {store : StoreRef}
    (hnumbered : (w.memory store).Numbered) (hwritten : (w.memory store).Written)
    (signal : SignalRef) (options : Options) (queues : List String) :
    ∃ picked, (w.memory store).Picks queues options.invisibility w.clock picked ∧
      Claims w (ofOptions store signal options) picked
        (w.run ((ofOptions store signal options).tryClaim queues).run) ∧
      ∀ others, (∀ name, name ∈ others ↔ name ∈ queues) →
        w.run ((ofOptions store signal options).tryClaim others).run =
          w.run ((ofOptions store signal options).tryClaim queues).run := by
  obtain ⟨picked, hpicks, hclaims⟩ := claims_tryClaim (q := ofOptions store signal options) hcalm
    hnumbered hwritten rfl queues
  exact ⟨picked, hpicks, hclaims, fun others hnames =>
    run_tryClaim_congr hcalm hnumbered hwritten hnames⟩

namespace Sample

def held : Stored :=
  ⟨⟨"job_queues", "a"⟩, Document.encode (⟨⟨"1"⟩, "low", some .origin⟩ : QueueEntry), 1, 1, none⟩

def waiting : Stored :=
  ⟨⟨"job_queues", "b"⟩, Document.encode (QueueEntry.pending "default" ⟨"2"⟩), 1, 2, none⟩

def nextDay : Instant := ⟨1, 0, 0, by decide⟩

def twoEntries : World :=
  (start nextDay).serve ⟨0⟩ [.commit [.put held.id held.body none .absent,
    .put waiting.id waiting.body none .absent]]

theorem entries_twoEntries : (twoEntries.memory ⟨0⟩).documents.entries =
    [(held.id, held), (waiting.id, waiting)] := rfl

theorem eq_of_find? {d : Stored} (h : (twoEntries.memory ⟨0⟩).find? d.id = some d) :
    d = held ∨ d = waiting := by
  have hmem := Entries.mem_of_find?_eq_some h
  rw [entries_twoEntries] at hmem
  rcases List.mem_cons.mp hmem with hfirst | hrest
  · exact .inl (Prod.mk.inj hfirst).2
  · exact .inr (Prod.mk.inj (List.mem_singleton.mp hrest)).2

theorem written_twoEntries : (twoEntries.memory ⟨0⟩).Written := by
  intro d hfound _
  rcases eq_of_find? hfound with rfl | rfl
  · refine ⟨_, rfl, fun t ht => ?_⟩
    cases ht
    decide
  · exact ⟨_, rfl, fun t ht => nomatch ht⟩

theorem offers_waiting (queues : List String) (hqueue : "default" ∈ queues) :
    (twoEntries.memory ⟨0⟩).Offers queues waiting (QueueEntry.pending "default" ⟨"2"⟩) :=
  ⟨rfl, rfl, rfl, hqueue⟩

end Sample

/-- The older of two entries is overdue, but the younger one waits. -/
theorem waiting_leased_before_overdue :
    Sample.twoEntries.Calm ∧ (Sample.twoEntries.memory ⟨0⟩).Numbered ∧
      (Sample.twoEntries.memory ⟨0⟩).Written ∧
      ∃ after, Sample.twoEntries.run
          ((ofOptions ⟨0⟩ ⟨0⟩ .standard).tryClaim ["low", "default", "low"]).run =
        (.ok (some (Lease.ofEntry ⟨0⟩ Sample.waiting.id
          (stamped (.pending "default" ⟨"2"⟩) Sample.nextDay))), after) := by
  have hcalm : Sample.twoEntries.Calm := ⟨rfl, rfl⟩
  have hnumbered : (Sample.twoEntries.memory ⟨0⟩).Numbered := numbered_serve _ _ _
  refine ⟨hcalm, hnumbered, Sample.written_twoEntries, ?_⟩
  obtain ⟨picked, hpicks, hclaims, -⟩ := oldest_claimable_leased hcalm hnumbered
    Sample.written_twoEntries ⟨0⟩ .standard ["low", "default", "low"]
  have hoffers := Sample.offers_waiting ["low", "default", "low"] (by decide)
  cases hpicks with
  | overdue hnone _ => exact absurd rfl (hnone _ _ hoffers)
  | nothing hnone => exact absurd rfl (hnone _ _ hoffers).1
  | @waiting d e holdest =>
      have hread := holdest.offered.decode?
      rcases Sample.eq_of_find? holdest.offered.found with rfl | rfl
      · cases (QueueEntry.decode?_encode _).symm.trans hread
        cases holdest.holds
      · cases (QueueEntry.decode?_encode _).symm.trans hread
        generalize Sample.twoEntries.run _ = outcome at hclaims ⊢
        cases hclaims with
        | @leased _ _ after _ => exact ⟨after, rfl⟩

end Simulation.World

end Jobyard
