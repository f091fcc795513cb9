import Jobyard.Proofs.Queue.Pick
import Jobyard.Proofs.Queue.Roll
import Jobyard.Proofs.Queue.Wiring
import Mathlib.Data.List.Basic

/-!
What a listing shows is what consumers get. In a calm world whose entries can be read, leases are
given in the order in which the waiting entries are listed, and an entry that is put back is listed
at its old place.
-/

namespace Jobyard.Simulation.World

open JobQueue

variable {w after : World} {store : StoreRef} {token : TokenRef} {queue : String}
  {roll : List Place} {stamp : DocId → Option Instant}

theorem run_count (hcalm : w.Calm) (store : StoreRef) (q : Query) :
    w.run (Action.store store (.count q)).run = ((w.memory store).count q, w) := by
  change w.call store (.count q) = _
  rw [call_eq_of_calm hcalm]
  rfl

/-- What the listings of a queue show: the waiting jobs page by page, and the two numbers. -/
structure Lists (w : World) (store : StoreRef) (queue : String) (jobs : List JobId)
    (fetched : Nat) : Prop where
  ids : ∀ skip take, w.run (QueueListing.enqueuedIds store queue skip take).run =
    (.ok ((jobs.drop skip).take take), w)
  counts : w.run (QueueListing.counts store queue).run = (.ok ⟨jobs.length, fetched⟩, w)

structure Serves (w : World) (store : StoreRef) (token : TokenRef) (queue : String)
    (roll : List Place) (stamp : DocId → Option Instant) : Prop where
  calm : w.Calm
  live : (w.token token).cancelled = false
  numbered : (w.memory store).Numbered
  legible : (w.memory store).Legible QueueEntry
  roll : (w.memory store).Roll queue roll stamp

theorem Serves.proceeds (h : w.Serves store token queue roll stamp)
    (hproceeds : Proceeds w after store (w.memory store)) :
    after.Serves store token queue roll stamp where
  calm := hproceeds.calm h.calm
  live := (hproceeds.tokens token).trans h.live
  numbered := hproceeds.memory.symm ▸ h.numbered
  legible := hproceeds.memory.symm ▸ h.legible
  roll := hproceeds.memory.symm ▸ h.roll

theorem Serves.clocked (h : w.Serves store token queue roll stamp) (time : Instant) :
    World.Serves { w with clock := time } store token queue roll stamp :=
  ⟨⟨h.calm.hooks, h.calm.deadline⟩, h.live, h.numbered, h.legible, h.roll⟩

theorem Serves.restamp (h : w.Serves store token queue roll stamp) {p : Place} (hp : p ∈ roll)
    {d : Stored} (hfound : (w.memory store).find? p.id = some d) {time : Option Instant}
    {next : Memory} (hcommit : (w.memory store).commit [.put p.id
      (Document.encode (QueueEntry.mk p.jobId queue time)) d.expiresAt (.exact d.etag)] = .ok next)
    (hproceeds : Proceeds w after store next) :
    after.Serves store token queue roll (Memory.restamp stamp p.id time) := by
  obtain ⟨old, hold, _, hnow, hothers⟩ := Memory.commit_put_exact hcommit
  rw [hfound] at hold
  cases hold
  obtain ⟨d', hfound', hsequence, hholds⟩ := h.roll.sound p hp
  rw [hfound] at hfound'
  cases hfound'
  refine ⟨hproceeds.calm h.calm, (hproceeds.tokens token).trans h.live, ?_, ?_, ?_⟩
  · rw [hproceeds.memory]
    exact h.numbered.commit hcommit
  · rw [hproceeds.memory]
    intro id other hother
    by_cases hid : id = p.id
    · rw [hid, hnow] at hother
      cases hother
      intro _
      simp only [QueueEntry.decode?_encode, Option.isSome_some]
    · rw [hothers id hid] at hother
      exact h.legible id other hother
  · rw [hproceeds.memory]
    exact h.roll.restamp hp hnow hsequence (Stored.holds_of_encode hholds.collection rfl) hothers

theorem run_page (h : w.Serves store token queue roll stamp) {q : Query} {whole : List Stored}
    {places : List Place} (hpaged : (w.memory store).Paged q whole)
    (hplaces : whole.map Place.of? = places.map some) (skip take : Nat) :
    w.run (QueueListing.page store q skip take).run =
      (.ok ((places.map (·.jobId)).drop skip |>.take take), w) := by
  have hquery := hpaged.sliced skip (some take)
  have hslice : (Query.slice skip (some take) whole).map Place.of? =
      ((places.drop skip).take take).map some := by
    change ((whole.drop skip).take take).map Place.of? = _
    rw [List.map_take, List.map_drop, hplaces, List.map_take, List.map_drop]
  obtain ⟨gathered, hgathered, hjobs⟩ := Place.mapM_decode hslice
  obtain ⟨next, hstart⟩ := Work.start_gather_mirrored (α := QueueEntry)
    (s := Session.empty store true) (Session.mirrors_of_empty rfl)
    fun d hd => (Memory.mem_of_query h.numbered.keyed hquery hd).1
  have hrun : w.run (Work.alone store (Work.query QueueEntry (q.page skip take))).run =
      (.ok gathered, w) := by
    change w.run (Work.alone store (Work.query QueueEntry (q.cut skip (some take)))).run = _
    rw [run_query h.calm hquery, hstart, hgathered]
    rfl
  unfold QueueListing.page
  rw [run_action_bind hrun]
  change (Except.ok (gathered.map (·.2.jobId)), w) = _
  rw [hjobs, List.map_take, List.map_drop]

theorem Serves.lists (h : w.Serves store token queue roll stamp) :
    w.Lists store queue ((roll.filter fun p => (stamp p.id).isNone).map (·.jobId))
      (roll.filter fun p => (stamp p.id).isSome).length := by
  have henqueued := h.numbered.paged (q := QueueListing.enqueued queue) rfl
  have hfetched := h.numbered.paged (q := QueueListing.fetched queue) rfl
  generalize ((w.memory store).accepted (QueueListing.enqueued queue)).mergeSort _ = waiting
    at henqueued
  generalize ((w.memory store).accepted (QueueListing.fetched queue)).mergeSort _ = taken
    at hfetched
  have hwaiting := h.roll.map_place h.legible henqueued (Memory.sorts_enqueued queue)
    h.numbered.keyed
  have htaken := h.roll.map_place h.legible hfetched (Memory.sorts_fetched queue) h.numbered.keyed
  refine ⟨run_page h henqueued hwaiting, ?_⟩
  have hfirst : w.run (Action.store store (.count (QueueListing.enqueued queue))).run =
      (.ok waiting.length, w) := by
    rw [run_count h.calm, ← henqueued.counted 0 none]
    rfl
  have hsecond : w.run (Action.store store (.count (QueueListing.fetched queue))).run =
      (.ok taken.length, w) := by
    rw [run_count h.calm, ← hfetched.counted 0 none]
    rfl
  have hlengths := congrArg List.length hwaiting
  have hlength := congrArg List.length htaken
  rw [List.length_map, List.length_map] at hlengths hlength
  unfold QueueListing.counts
  rw [run_action_bind hfirst, run_action_bind hsecond, hlengths, hlength, List.length_map]
  rfl

theorem Serves.query_pending (h : w.Serves store token queue roll stamp) {p : Place}
    {rest : List Place} (hwaiting : (roll.filter fun p => (stamp p.id).isNone) = p :: rest) :
    ∃ d others, (w.memory store).query (pending [queue]) = .ok (d :: others) ∧
      (∀ d' ∈ d :: others, (w.memory store).find? d'.id = some d') ∧
      (∀ d' ∈ d :: others, (Document.decode? d'.body : Option QueueEntry).isSome) ∧
      d.id = p.id ∧ Document.decode? d.body = some (QueueEntry.mk p.jobId queue none) := by
  have hpaged := h.numbered.paged (q := QueueListing.enqueued queue) rfl
  generalize ((w.memory store).accepted (QueueListing.enqueued queue)).mergeSort _ = whole
    at hpaged
  have hplaces := h.roll.map_place h.legible hpaged (Memory.sorts_enqueued queue) h.numbered.keyed
  rw [hwaiting] at hplaces
  cases whole with
  | nil => cases hplaces
  | cons d others =>
      have hfound : ∀ d' ∈ d :: others, (w.memory store).find? d'.id = some d' :=
        fun d' hd' => ((hpaged.mem_iff d').mp hd').1
      obtain ⟨hroll, hnone⟩ := List.mem_filter.mp (hwaiting.symm ▸ List.mem_cons_self)
      obtain ⟨d', hfound', -, hholds⟩ := h.roll.sound p hroll
      obtain ⟨e, -, rfl⟩ := Place.exists_entry (List.cons.inj hplaces).1
      rw [hfound d List.mem_cons_self] at hfound'
      cases hfound'
      rw [Option.isNone_iff_eq_none.mp hnone] at hholds
      refine ⟨d, others, ?_, hfound, fun d' hd' => ?_, rfl, hholds.entry⟩
      · rw [query_pending_singleton]
        exact hpaged.unpaged
      · obtain ⟨_, _, _, hof⟩ := h.roll.exists_place h.legible hpaged
          (Memory.sorts_enqueued queue) hd'
        obtain ⟨e', hentry, _⟩ := Place.exists_entry hof
        exact Option.isSome_iff_exists.mpr ⟨e', hentry⟩

theorem run_tryClaim_first {q : JobQueue} (h : w.Serves q.store token queue roll stamp) {p : Place}
    {rest : List Place} (hwaiting : (roll.filter fun p => (stamp p.id).isNone) = p :: rest) :
    ∃ after, w.run (q.tryClaim [queue]).run =
        (.ok (some ⟨q.store, p.id, p.jobId, queue, some w.clock, false⟩), after) ∧
      after.Serves q.store token queue roll (Memory.restamp stamp p.id (some w.clock)) := by
  obtain ⟨d, others, hquery, hfound, hread, hid, hentry⟩ := h.query_pending hwaiting
  obtain ⟨hroll, -⟩ := List.mem_filter.mp (hwaiting.symm ▸ List.mem_cons_self)
  have hhere := hfound d List.mem_cons_self
  have hcan : (d :: others).find? (canClaim w q) = some d := by
    refine List.find?_cons_of_pos ?_
    unfold canClaim
    rw [hentry]
    rfl
  have hclaims := (run_claimFirst h.calm hquery hfound hread).2 d _ hcan hentry
  rw [hclaims.tryClaim]
  generalize w.run (q.claimFirst (pending [queue])).run = outcome at hclaims
  cases hclaims with
  | @leased _ _ after hproceeds =>
      have hcommit := Memory.commit_claimBatch hhere (QueueEntry.mk p.jobId queue none) w.clock
      rw [hid] at hhere
      refine ⟨after, ?_, h.restamp hroll hhere ?_ hproceeds⟩
      · rw [hid]
        rfl
      · rw [← hcommit, ← hid]
        rfl

theorem run_dequeue_first {q : JobQueue} (h : w.Serves q.store token queue roll stamp) {p : Place}
    {rest : List Place} (hwaiting : (roll.filter fun p => (stamp p.id).isNone) = p :: rest)
    (more : Nat) :
    ∃ after, w.run (q.dequeue [queue] token (more + 1)) =
        (.ok (some ⟨q.store, p.id, p.jobId, queue, some w.clock, false⟩), after) ∧
      after.Serves q.store token queue roll (Memory.restamp stamp p.id (some w.clock)) := by
  have hwatch := proceeds_watch w token q.signal q.store
  obtain ⟨after, htry, hafter⟩ := run_tryClaim_first (h.proceeds hwatch) hwaiting
  rw [hwatch.clock] at htry hafter
  exact ⟨after, run_dequeue more h.live htry (by simp), hafter⟩

theorem run_abandon {l : Lease} (h : w.Serves l.store token queue roll stamp) {p : Place}
    (hp : p ∈ roll) (hid : l.entryId = p.id)
    (hstamp : stamp p.id = l.claimedAt ∨ stamp p.id = none) :
    ∃ after, w.run l.abandon.run = (.ok { l with resolved := true }, after) ∧
      after.Serves l.store token queue roll (Memory.restamp stamp p.id none) := by
  obtain ⟨d, hfound, -, hholds⟩ := h.roll.sound p hp
  have howns := run_ownedEntry h.calm (hid.symm ▸ hfound) hholds.entry
  suffices hrequeue : ∃ returned after, w.run l.requeue.run = (.ok returned, after) ∧
      after.Serves l.store token queue roll (Memory.restamp stamp p.id none) by
    obtain ⟨returned, after, hrun, hserves⟩ := hrequeue
    have hdiscarded : w.run (discard l.requeue : Action PUnit).run = (.ok (), after) :=
      run_action_bind hrun _
    exact ⟨after, run_action_bind hdiscarded _, hserves⟩
  unfold Lease.requeue
  by_cases howned : stamp p.id = l.claimedAt
  · have hcommit := Memory.commit_put_eq hfound
      (Document.encode (QueueEntry.mk p.jobId queue none)) d.expiresAt
    have hput := hcommit
    rw [← hid] at hput
    obtain ⟨after, hwritten, hproceeds⟩ := run_commitOwned h.calm hput
    rw [hid] at hproceeds
    rw [if_pos howned] at howns
    refine ⟨true, after, ?_, h.restamp hp hfound hcommit hproceeds⟩
    rw [run_action_bind howns]
    exact hwritten
  · rw [if_neg howned] at howns
    have hsame : Memory.restamp stamp p.id none = stamp := by
      funext other
      unfold Memory.restamp
      split
      · rename_i hother
        rw [hother]
        exact (hstamp.resolve_left howned).symm
      · rfl
    refine ⟨false, w, ?_, hsame.symm ▸ h⟩
    rw [run_action_bind howns]
    rfl

def fetches (c : Connection) (queue : String) (token : TokenRef) (limit : Nat) (w : World) :
    List Instant → List (Except QueueError (Option Lease)) × World
  | [] => ([], w)
  | time :: rest =>
    let fetched := World.run { w with clock := time } (c.fetchNextJob [queue] token limit)
    let others := fetches c queue token limit fetched.2 rest
    (fetched.1 :: others.1, others.2)

def abandons (w : World) : List Lease → List (Except StoreError Lease) × World
  | [] => ([], w)
  | l :: rest =>
    let abandoned := w.run l.abandon.run
    let others := abandoned.2.abandons rest
    (abandoned.1 :: others.1, others.2)

/-- Leases on the entries at some places, which carry the stamps of these leases since. -/
structure Granted (store : StoreRef) (stamp fetched : DocId → Option Instant)
    (leases : List Lease) (places : List Place) : Prop where
  entries : leases.map (fun l => (l.entryId, l.jobId)) = places.map fun p => (p.id, p.jobId)
  stores : ∀ l ∈ leases, l.store = store
  stamps : ∀ l ∈ leases, l.claimedAt.isSome ∧ fetched l.entryId = l.claimedAt
  others : ∀ id, id ∉ leases.map (·.entryId) → fetched id = stamp id

theorem Granted.ids {fetched : DocId → Option Instant} {leases : List Lease} {places : List Place}
    (h : Granted store stamp fetched leases places) :
    leases.map (·.entryId) = places.map (·.id) := by
  have hfirst := congrArg (List.map Prod.fst) h.entries
  rw [List.map_map, List.map_map] at hfirst
  exact hfirst

theorem Granted.jobs {fetched : DocId → Option Instant} {leases : List Lease} {places : List Place}
    (h : Granted store stamp fetched leases places) :
    leases.map (·.jobId) = places.map (·.jobId) := by
  have hsecond := congrArg (List.map Prod.snd) h.entries
  rw [List.map_map, List.map_map] at hsecond
  exact hsecond

theorem Granted.cons (queue : String) {p : Place} {time : Instant}
    {fetched : DocId → Option Instant} {leases : List Lease} {places : List Place}
    (h : Granted store (Memory.restamp stamp p.id (some time)) fetched leases places)
    (hnew : p.id ∉ places.map (·.id)) :
    Granted store stamp fetched (⟨store, p.id, p.jobId, queue, some time, false⟩ :: leases)
      (p :: places) where
  entries := by rw [List.map_cons, List.map_cons, h.entries]
  stores := List.forall_mem_cons.mpr ⟨rfl, h.stores⟩
  stamps := by
    refine List.forall_mem_cons.mpr ⟨⟨rfl, ?_⟩, h.stamps⟩
    rw [h.others p.id (h.ids.symm ▸ hnew), Memory.restamp, if_pos rfl]
  others id hid := by
    rw [h.others id (List.not_mem_of_not_mem_cons hid), Memory.restamp,
      if_neg (List.ne_of_not_mem_cons hid)]

theorem Serves.fetches {c : Connection} {line : List Place} (limit : Nat)
    (h : w.Serves (c.routing.serving queue).store token queue roll stamp)
    (hline : (roll.filter fun p => (stamp p.id).isNone) = line) (times : List Instant)
    (henough : times.length ≤ line.length) :
    ∃ (leases : List Lease) (after : World) (fetched : DocId → Option Instant),
      w.fetches c queue token (limit + 1) times = (leases.map fun l => .ok (some l), after) ∧
      after.Serves (c.routing.serving queue).store token queue roll fetched ∧
      (roll.filter fun p => (fetched p.id).isNone) = line.drop times.length ∧
      Granted (c.routing.serving queue).store stamp fetched leases (line.take times.length) := by
  induction times generalizing w stamp line with
  | nil =>
      exact ⟨[], w, stamp, rfl, h, hline, ⟨rfl, fun _ hl => (nomatch hl),
        fun _ hl => (nomatch hl), fun _ _ => rfl⟩⟩
  | cons time rest ih =>
      cases line with
      | nil => exact absurd henough (Nat.not_succ_le_zero _)
      | cons p others =>
          obtain ⟨middle, hrun, hmiddle⟩ := run_dequeue_first (h.clocked time) hline limit
          obtain ⟨leases, after, fetched, hfetches, hserves, hleft, hgranted⟩ :=
            ih hmiddle (h.roll.filter_restamp hline time) (Nat.le_of_succ_le_succ henough)
          have hnodup : ((p :: others).map (·.id)).Nodup := by
            rw [← hline]
            exact h.roll.nodup_ids.sublist (List.filter_sublist.map _)
          have hnew : p.id ∉ (others.take rest.length).map (·.id) := fun hmem =>
            (List.nodup_cons.mp hnodup).1 (List.mem_of_mem_take (List.map_take ▸ hmem))
          refine ⟨_, after, fetched, ?_, hserves, hleft, hgranted.cons queue hnew⟩
          rw [World.fetches, Connection.fetchNextJob_singleton, hrun]
          simp only [hfetches, List.map_cons]

theorem Serves.abandons (h : w.Serves store token queue roll stamp) (back : List Lease)
    (hback : ∀ l ∈ back, l.store = store ∧ (∃ p ∈ roll, l.entryId = p.id) ∧
      (stamp l.entryId = l.claimedAt ∨ stamp l.entryId = none)) :
    ∃ after returned, w.abandons back =
        (back.map fun l => .ok { l with resolved := true }, after) ∧
      after.Serves store token queue roll returned ∧
      ∀ id, returned id = if id ∈ back.map (·.entryId) then none else stamp id := by
  induction back generalizing w stamp with
  | nil => exact ⟨w, stamp, rfl, h, fun id => rfl⟩
  | cons l rest ih =>
      obtain ⟨rfl, ⟨p, hp, hid⟩, hstamp⟩ := hback l List.mem_cons_self
      obtain ⟨middle, hrun, hmiddle⟩ := run_abandon h hp hid (hid ▸ hstamp)
      obtain ⟨after, returned, hrest, hserves, hreturned⟩ := ih hmiddle fun other hother => by
        obtain ⟨hstore, hplace, hother⟩ := hback other (List.mem_cons_of_mem l hother)
        refine ⟨hstore, hplace, ?_⟩
        unfold Memory.restamp
        split
        · exact .inr rfl
        · exact hother
      refine ⟨after, returned, ?_, hserves, fun id => ?_⟩
      · rw [World.abandons, hrun]
        simp only [hrest, List.map_cons]
      · rw [hreturned, Memory.restamp]
        by_cases hfirst : id = p.id
        · simp [hfirst, hid]
        · simp [hfirst, hid]

theorem length_filter_add (places : List Place) {f g : Place → Bool} (h : ∀ p, g p = !f p) :
    (places.filter f).length + (places.filter g).length = places.length := by
  rw [← List.countP_eq_length_filter, ← List.countP_eq_length_filter,
    places.length_eq_countP_add_countP f]
  congr 2
  funext p
  rw [h]
  cases f p <;> rfl

theorem length_waiting_add (roll : List Place) (stamp : DocId → Option Instant) :
    (roll.filter fun p => (stamp p.id).isNone).length +
      (roll.filter fun p => (stamp p.id).isSome).length = roll.length :=
  length_filter_add roll fun p => (Option.not_isNone (stamp p.id)).symm

theorem Granted.owned {fetched : DocId → Option Instant} {leases : List Lease} {n : Nat} {l : Lease}
    (h : Granted store stamp fetched leases
      ((roll.filter fun p => (stamp p.id).isNone).take n)) (hl : l ∈ leases) :
    l.store = store ∧ (∃ p ∈ roll, l.entryId = p.id) ∧
      (fetched l.entryId = l.claimedAt ∨ fetched l.entryId = none) := by
  have hmem : l.entryId ∈ leases.map (·.entryId) := List.mem_map.mpr ⟨l, hl, rfl⟩
  rw [h.ids] at hmem
  obtain ⟨p, hp, hid⟩ := List.mem_map.mp hmem
  exact ⟨h.stores l hl, ⟨p, (List.mem_filter.mp (List.mem_of_mem_take hp)).1, hid.symm⟩,
    .inl (h.stamps l hl).2⟩

theorem Granted.filter_returned {fetched returned : DocId → Option Instant}
    {leases back : List Lease} {n : Nat} (h : Granted store stamp fetched leases
      ((roll.filter fun p => (stamp p.id).isNone).take n))
    (hback : ∀ l ∈ back, l ∈ leases)
    (hreturned : ∀ id, returned id = if id ∈ back.map (·.entryId) then none else fetched id) :
    (roll.filter fun p => (returned p.id).isNone) =
      (roll.filter fun p => (stamp p.id).isNone).filter fun p =>
        p.id ∈ leases.map (·.entryId) → p.id ∈ back.map (·.entryId) := by
  -- An entry was put back, or is still leased, or was never leased by these consumers.
  rw [List.filter_filter]
  refine List.filter_congr fun p _ => ?_
  rw [hreturned]
  by_cases hleased : p.id ∈ leases.map (·.entryId)
  · have hwaited : (stamp p.id).isNone = true := by
      have hmem := hleased
      rw [h.ids] at hmem
      obtain ⟨place, hplace, hid⟩ := List.mem_map.mp hmem
      rw [← hid]
      exact (List.mem_filter.mp (List.mem_of_mem_take hplace)).2
    by_cases hback : p.id ∈ back.map (·.entryId)
    · rw [if_pos hback, hwaited, decide_eq_true fun _ => hback]
      rfl
    · have hheld : (fetched p.id).isNone = false := by
        obtain ⟨l, hl, hid⟩ := List.mem_map.mp hleased
        obtain ⟨hsome, hstamp⟩ := h.stamps l hl
        rw [← hid, hstamp, ← Option.not_isSome, hsome]
        rfl
      have hkept : ¬ (p.id ∈ leases.map (·.entryId) → p.id ∈ back.map (·.entryId)) :=
        fun himp => hback (himp hleased)
      rw [if_neg hback, hheld, decide_eq_false hkept, Bool.false_and]
  · have hkept : p.id ∉ back.map (·.entryId) := by
      intro hmem
      obtain ⟨l, hl, hid⟩ := List.mem_map.mp hmem
      exact hleased (List.mem_map.mpr ⟨l, hback l hl, hid⟩)
    rw [if_neg hkept, h.others p.id hleased, decide_eq_true fun hmem => absurd hmem hleased,
      Bool.true_and]

/-- Leases are given in the order of the listing, and what is abandoned comes back to its place. -/
theorem leased_in_listed_order (c : Connection) (queue : String) (token : TokenRef) (limit : Nat)
    (hcalm : w.Calm)
    (hnumbered : (w.memory (c.routing.serving queue).store).Numbered)
    (hlegible : (w.memory (c.routing.serving queue).store).Legible QueueEntry)
    (hlive : (w.token token).cancelled = false) :
    let store := (c.routing.serving queue).store
    ∃ (line : List Place) (fetched : Nat), (line.map (·.id)).Nodup ∧
      w.Lists store queue (line.map (·.jobId)) fetched ∧
      ∀ times : List Instant, times.length ≤ line.length →
        ∃ (leases : List Lease) (after : World),
          w.fetches c queue token (limit + 1) times =
            (leases.map fun l => .ok (some l), after) ∧
          leases.map (fun l => (l.entryId, l.jobId)) =
            (line.take times.length).map (fun p => (p.id, p.jobId)) ∧
          w.run (QueueListing.enqueuedIds store queue 0 times.length).run =
            (.ok (leases.map (·.jobId)), w) ∧
          after.Lists store queue ((line.drop times.length).map (·.jobId))
            (fetched + times.length) ∧
          ∀ back : List Lease, (∀ l ∈ back, l ∈ leases) →
            ∃ last, after.abandons back =
                (back.map fun l => .ok { l with resolved := true }, last) ∧
              last.Lists store queue
                ((line.filter fun p => p.id ∈ leases.map (·.entryId) →
                  p.id ∈ back.map (·.entryId)).map (·.jobId))
                (fetched + (line.filter fun p => p.id ∈ leases.map (·.entryId) ∧
                  p.id ∉ back.map (·.entryId)).length) := by
  intro store
  obtain ⟨roll, stamp, hroll⟩ := Memory.exists_roll hnumbered hlegible queue
  have hserves : w.Serves store token queue roll stamp :=
    ⟨hcalm, hlive, hnumbered, hlegible, hroll⟩
  refine ⟨roll.filter fun p => (stamp p.id).isNone, _,
    hroll.nodup_ids.sublist (List.filter_sublist.map _), hserves.lists, fun times henough => ?_⟩
  obtain ⟨leases, after, fetched, hfetches, hafter, hleft, hgranted⟩ :=
    hserves.fetches limit rfl times henough
  refine ⟨leases, after, hfetches, hgranted.entries, ?_, ?_, fun back hback => ?_⟩
  · rw [hserves.lists.ids, hgranted.jobs, List.map_take]
    rfl
  · -- The roll stays as long as it was, so what no longer waits is stamped.
    have hlists := hafter.lists
    have hfirst := length_waiting_add roll stamp
    have hsecond := length_waiting_add roll fetched
    rw [hleft] at hlists hsecond
    rw [List.length_drop] at hsecond
    rw [show (roll.filter fun p => (stamp p.id).isSome).length + times.length =
      (roll.filter fun p => (fetched p.id).isSome).length by omega]
    exact hlists
  · obtain ⟨last, returned, habandons, hlast, hreturned⟩ :=
      hafter.abandons back fun l hl => hgranted.owned (hback l hl)
    refine ⟨last, habandons, ?_⟩
    have hlists := hlast.lists
    have hwaiting := hgranted.filter_returned hback hreturned
    have hfirst := length_waiting_add roll stamp
    have hsecond := length_waiting_add roll returned
    have hsplit := length_filter_add (roll.filter fun p => (stamp p.id).isNone)
      (f := fun p => p.id ∈ leases.map (·.entryId) → p.id ∈ back.map (·.entryId))
      (g := fun p => p.id ∈ leases.map (·.entryId) ∧ p.id ∉ back.map (·.entryId))
      fun p => by
        rw [Bool.eq_iff_iff, decide_eq_true_iff, Bool.not_eq_true', decide_eq_false_iff_not,
          Classical.not_imp]
    rw [hwaiting] at hlists hsecond
    rw [show (roll.filter fun p => (stamp p.id).isSome).length + _ =
      (roll.filter fun p => (returned p.id).isSome).length by omega]
    exact hlists

theorem Lists.unique {jobs others : List JobId} {fetched held : Nat}
    (h : w.Lists store queue jobs fetched) (hother : w.Lists store queue others held) :
    jobs = others ∧ fetched = held := by
  have hcounts := Except.ok.inj (Prod.mk.inj (h.counts.symm.trans hother.counts)).1
  obtain ⟨hlength, hheld⟩ := QueueCounts.mk.inj hcounts
  have hids := Except.ok.inj (Prod.mk.inj
    ((h.ids 0 jobs.length).symm.trans (hother.ids 0 jobs.length))).1
  refine ⟨?_, hheld⟩
  rwa [List.drop_zero, List.drop_zero, List.take_length, hlength, List.take_length] at hids

namespace Sample

def entry (key job : String) (sequence : Nat) (fetchedAt : Option Instant) : Stored :=
  ⟨⟨"job_queues", key⟩, Document.encode (⟨⟨job⟩, "default", fetchedAt⟩ : QueueEntry), 1, sequence,
    none⟩

/-- The second entry is held, and the keys are in another order. -/
def lineup : List Stored :=
  [entry "c" "1" 1 none, entry "d" "2" 2 (some .origin), entry "a" "3" 3 none,
    entry "b" "4" 4 none]

def crowded : World :=
  (start nextDay).serve ⟨0⟩ [.commit (lineup.map fun d => .put d.id d.body none .absent)]

def place (key job : String) (sequence : Nat) : Place := ⟨⟨"job_queues", key⟩, sequence, ⟨job⟩⟩

def lineupPlaces : List Place :=
  [place "c" "1" 1, place "d" "2" 2, place "a" "3" 3, place "b" "4" 4]

def lineupStamp (id : DocId) : Option Instant := if id.key = "d" then some .origin else none

theorem mem_lineup {d : Stored} (h : (crowded.memory ⟨0⟩).find? d.id = some d) : d ∈ lineup := by
  have hmem : (d.id, d) ∈ [(⟨"job_queues", "a"⟩, entry "a" "3" 3 none),
      (⟨"job_queues", "b"⟩, entry "b" "4" 4 none), (⟨"job_queues", "c"⟩, entry "c" "1" 1 none),
      (⟨"job_queues", "d"⟩, entry "d" "2" 2 (some .origin))] := Entries.mem_of_find?_eq_some h
  simp only [List.mem_cons, Prod.mk.injEq, List.not_mem_nil, or_false] at hmem
  rcases hmem with ⟨_, rfl⟩ | ⟨_, rfl⟩ | ⟨_, rfl⟩ | ⟨_, rfl⟩ <;> simp [lineup]

theorem holds_entry (key job : String) (sequence : Nat) (fetchedAt : Option Instant) :
    (entry key job sequence fetchedAt).Holds ⟨⟨job⟩, "default", fetchedAt⟩ :=
  Stored.holds_of_encode rfl rfl

theorem roll_crowded : (crowded.memory ⟨0⟩).Roll "default" lineupPlaces lineupStamp where
  sound := by
    simp only [lineupPlaces, List.forall_mem_cons]
    exact ⟨⟨entry "c" "1" 1 none, rfl, rfl, holds_entry ..⟩,
      ⟨entry "d" "2" 2 (some .origin), rfl, rfl, holds_entry ..⟩,
      ⟨entry "a" "3" 3 none, rfl, rfl, holds_entry ..⟩,
      ⟨entry "b" "4" 4 none, rfl, rfl, holds_entry ..⟩, fun _ h => nomatch h⟩
  complete d e hfound hholds _ := by
    have hmem := mem_lineup hfound
    simp only [lineup, List.mem_cons, List.not_mem_nil, or_false] at hmem
    rcases hmem with rfl | rfl | rfl | rfl <;> rw [hholds.unique (holds_entry ..)] <;>
      simp [lineupPlaces, place, entry]
  sorted := by decide

theorem legible_crowded : (crowded.memory ⟨0⟩).Legible QueueEntry := by
  intro id d hfound _
  have hid : d.id = id := (numbered_serve _ _ _).keyed id d hfound
  have hmem := mem_lineup (hid.symm ▸ hfound)
  simp only [lineup, List.mem_cons, List.not_mem_nil, or_false] at hmem
  rcases hmem with rfl | rfl | rfl | rfl <;>
    exact Option.isSome_iff_exists.mpr ⟨_, (holds_entry ..).entry⟩

end Sample

/-- Three leases are given around the held entry; the last and the first of them are abandoned. -/
theorem waiting_leased_as_listed :
    let w := Sample.crowded
    let c := Simulation.Sample.connection
    let times := [Sample.nextDay, Sample.nextDay, Sample.nextDay]
    w.Calm ∧ (w.memory ⟨0⟩).Numbered ∧ (w.memory ⟨0⟩).Legible QueueEntry ∧
      (w.token ⟨0⟩).cancelled = false ∧ w.Lists ⟨0⟩ "default" [⟨"1"⟩, ⟨"3"⟩, ⟨"4"⟩] 1 ∧
      ∃ (first second third : Lease) (after : World),
        w.fetches c "default" ⟨0⟩ 1 times =
          ([.ok (some first), .ok (some second), .ok (some third)], after) ∧
        [first, second, third].map (·.jobId) = [⟨"1"⟩, ⟨"3"⟩, ⟨"4"⟩] ∧
        after.Lists ⟨0⟩ "default" [] 4 ∧
        (after.abandons [third, first]).2.Lists ⟨0⟩ "default" [⟨"1"⟩, ⟨"4"⟩] 2 := by
  intro w c times
  have hcalm : w.Calm := ⟨rfl, rfl⟩
  have hnumbered : (w.memory ⟨0⟩).Numbered := numbered_serve _ _ _
  have hserves : w.Serves ⟨0⟩ ⟨0⟩ "default" Sample.lineupPlaces Sample.lineupStamp :=
    ⟨hcalm, rfl, hnumbered, Sample.legible_crowded, Sample.roll_crowded⟩
  have hlisted : w.Lists ⟨0⟩ "default" [⟨"1"⟩, ⟨"3"⟩, ⟨"4"⟩] 1 := hserves.lists
  refine ⟨hcalm, hnumbered, Sample.legible_crowded, rfl, hlisted, ?_⟩
  obtain ⟨line, fetched, hnodup, hlists, hfetch⟩ := leased_in_listed_order c "default" ⟨0⟩ 0
    hcalm hnumbered Sample.legible_crowded rfl
  obtain ⟨hjobs, rfl⟩ := hlists.unique hlisted
  obtain ⟨p, q, r, rfl⟩ : ∃ p q r, line = [p, q, r] :=
    List.length_eq_three.mp (by simpa using congrArg List.length hjobs)
  obtain ⟨leases, after, hrun, hleases, -, hafter, habandon⟩ := hfetch times (Nat.le_refl 3)
  obtain ⟨first, second, third, rfl⟩ : ∃ first second third, leases = [first, second, third] :=
    List.length_eq_three.mp (by simpa [times] using congrArg List.length hleases)
  obtain ⟨last, hback, hlast⟩ := habandon [third, first] (by simp)
  have hleased : [first, second, third].map (·.jobId) = [p, q, r].map (·.jobId) :=
    congrArg (List.map Prod.snd) hleases
  have hids : [first, second, third].map (·.entryId) = [p, q, r].map (·.id) :=
    congrArg (List.map Prod.fst) hleases
  refine ⟨first, second, third, after, hrun, hleased.trans hjobs, hafter, ?_⟩
  obtain ⟨hpq, hpr, hqr⟩ : p.id ≠ q.id ∧ p.id ≠ r.id ∧ q.id ≠ r.id := by
    simpa [and_assoc] using hnodup
  rw [hback]
  change last.Lists ⟨0⟩ "default" _ _ at hlast
  rw [hids] at hlast
  simp only [List.map_cons, List.map_nil, List.cons.injEq, and_true] at hids hjobs
  obtain ⟨hfirst, -, hthird⟩ := hids
  obtain ⟨hone, -, hfour⟩ := hjobs
  simpa [hfirst, hthird, hpq, hpr, hqr, hpq.symm, hone, hfour] using hlast

end Jobyard.Simulation.World
