import Jobyard.Proofs.Session.Sight
import Jobyard.Proofs.Store.Arrival

/-!
What is left after expired documents are purged. A purge takes some of the expired documents and
nothing else; purges that go on until one is short take all of them, in whatever order each comes
upon the documents.
-/

namespace Jobyard

namespace Memory

def expired (m : Memory) (now : Instant) : List Stored :=
  m.documents.values.filter (isExpired now)

structure Spares (m : Memory) (now : Instant) (next : Memory) : Prop where
  find?_eq : ∀ id, next.find? id = (m.find? id).filter fun d => !isExpired now d
  lastSequence : next.lastSequence = m.lastSequence

def purgeScanned (m : Memory) (scan : List Stored) (now : Instant) (limit : Nat) : Memory × Nat :=
  let taken := (scan.filter (isExpired now)).take limit
  ({ m with documents := (taken.map (·.id)).foldl Dict.erase m.documents }, taken.length)

/-- Purges up to the first short one: how many documents they take, and what they leave. None when
all rounds are used up. -/
def sweep (scan : Memory → List Stored) (now : Instant) (limit : Nat) :
    Nat → Memory → Option (Nat × Memory)
  | 0, _ => none
  | more + 1, m =>
    let (next, taken) := m.purgeScanned (scan m) now limit
    if taken < limit then some (taken, next)
    else (sweep scan now limit more next).map fun (rest, last) => (taken + rest, last)

/-- As many expired documents as the limit allows are gone, and everything else is as it was. -/
structure Thins (m : Memory) (now : Instant) (limit : Nat) (next : Memory) (taken : Nat) :
    Prop where
  taken_eq : taken = min limit (m.expired now).length
  expired : (next.expired now).length + taken = (m.expired now).length
  find?_cases : ∀ id, next.find? id = m.find? id ∨
    next.find? id = none ∧ ∃ d, m.find? id = some d ∧ isExpired now d = true
  lastSequence : next.lastSequence = m.lastSequence

variable {m next last : Memory} {now : Instant} {limit taken : Nat} {d : Stored}

theorem mem_expired_iff (hkeyed : m.Keyed) :
    d ∈ m.expired now ↔ m.find? d.id = some d ∧ isExpired now d = true := by
  unfold expired
  rw [List.mem_filter, Dict.mem_values_iff]
  refine and_congr_left fun _ => ⟨fun ⟨key, hkey⟩ => ?_, fun hfound => ⟨d.id, hfound⟩⟩
  exact (hkeyed key d hkey).symm ▸ hkey

theorem nodup_values (hkeyed : m.Keyed) : m.documents.values.Nodup := by
  refine List.pairwise_map.mpr (m.documents.sorted.imp_of_mem ?_)
  intro a b ha hb hlt hsame
  have hfirst : a.2.id = a.1 := hkeyed _ _ (Entries.find?_eq_some_of_mem m.documents.sorted ha)
  have hsecond : b.2.id = b.1 := hkeyed _ _ (Entries.find?_eq_some_of_mem m.documents.sorted hb)
  have hkeys : a.1 = b.1 := by rw [← hfirst, ← hsecond, hsame]
  have heq : compare a.1 b.1 = .eq := hkeys ▸ Std.ReflCmp.compare_self
  rw [heq] at hlt
  cases hlt

theorem Keyed.of_kept (hkeyed : m.Keyed)
    (hkept : ∀ id, next.find? id = none ∨ next.find? id = m.find? id) : next.Keyed := by
  intro id d hd
  rcases hkept id with hnone | hsame
  · rw [hnone] at hd
    cases hd
  · exact hkeyed id d (hsame ▸ hd)

theorem Thins.keyed (h : m.Thins now limit next taken) (hkeyed : m.Keyed) : next.Keyed :=
  hkeyed.of_kept fun id => (h.find?_cases id).symm.imp_left And.left

theorem perm_expired (hkeyed : m.Keyed) {gone : List Stored} (hnodup : gone.Nodup)
    (hgone : ∀ d ∈ gone, d ∈ m.expired now)
    (hfind : ∀ id, next.find? id = if id ∈ gone.map (·.id) then none else m.find? id) :
    (next.expired now ++ gone).Perm (m.expired now) := by
  have hkeyedNext : next.Keyed := by
    refine hkeyed.of_kept fun id => ?_
    rw [hfind]
    split
    · exact .inl rfl
    · exact .inr rfl
  have hids : ∀ d, m.find? d.id = some d → (d.id ∈ gone.map (·.id) ↔ d ∈ gone) := by
    intro d hd
    refine ⟨fun hmem => ?_, List.mem_map_of_mem⟩
    obtain ⟨other, hother, hid⟩ := List.mem_map.mp hmem
    have hfound := ((mem_expired_iff hkeyed).mp (hgone other hother)).1
    rw [hid, hd] at hfound
    exact Option.some.inj hfound ▸ hother
  have hleft : ∀ d, d ∈ next.expired now ↔ d ∈ m.expired now ∧ d ∉ gone := by
    intro d
    rw [mem_expired_iff hkeyedNext, mem_expired_iff hkeyed, hfind]
    by_cases hd : m.find? d.id = some d
    · simp [hids d hd, hd, and_comm]
    · simp [hd]
  have hall : (m.expired now).Nodup := (nodup_values hkeyed).filter _
  refine (List.perm_ext_iff_of_nodup ?_ hall).mpr fun d => ?_
  · refine List.nodup_append.mpr ⟨(nodup_values hkeyedNext).filter _, hnodup, ?_⟩
    rintro d hd other hother rfl
    exact ((hleft d).mp hd).2 hother
  · rw [List.mem_append, hleft]
    by_cases hd : d ∈ gone
    · simp [hd, hgone d hd]
    · simp [hd]

theorem thins_purgeScanned (hkeyed : m.Keyed) {scan : List Stored}
    (hscan : scan.Perm m.documents.values) :
    m.Thins now limit (m.purgeScanned scan now limit).1 (m.purgeScanned scan now limit).2 := by
  have hall : (scan.filter (isExpired now)).Perm (m.expired now) := hscan.filter _
  have hnodup : ((scan.filter (isExpired now)).take limit).Nodup :=
    (hall.nodup_iff.mpr ((nodup_values hkeyed).filter _)).sublist (List.take_sublist _ _)
  have hgone : ∀ d ∈ (scan.filter (isExpired now)).take limit, d ∈ m.expired now :=
    fun d hd => hall.mem_iff.mp (List.mem_of_mem_take hd)
  -- What is taken is told by the documents that the purge comes upon in time.
  have hfind : ∀ id, (m.purgeScanned scan now limit).1.find? id =
      if id ∈ ((scan.filter (isExpired now)).take limit).map (·.id) then none else m.find? id :=
    Dict.find?_foldl_erase _ m.documents
  have hlength := (perm_expired hkeyed hnodup hgone hfind).length_eq
  rw [List.length_append] at hlength
  refine ⟨?_, hlength, fun id => ?_, rfl⟩
  · exact List.length_take.trans (congrArg (min limit) hall.length_eq)
  · rw [hfind]
    split
    · rename_i hmem
      obtain ⟨d, hd, rfl⟩ := List.mem_map.mp hmem
      exact .inr ⟨rfl, d, (mem_expired_iff hkeyed).mp (hgone d hd)⟩
    · exact .inl rfl

theorem Thins.spares (h : m.Thins now limit next taken) (hkeyed : m.Keyed)
    (hnone : (next.expired now).length = 0) : m.Spares now next where
  find?_eq id := by
    have hempty := List.length_eq_zero_iff.mp hnone
    rcases h.find?_cases id with hsame | ⟨hgone, d, hfound, hexpired⟩
    · cases hleft : next.find? id with
      | none =>
          rw [← hsame, hleft]
          rfl
      | some d =>
          have hid : d.id = id := h.keyed hkeyed id d hleft
          have hnot : ¬ (next.find? d.id = some d ∧ isExpired now d = true) := by
            rw [← mem_expired_iff (h.keyed hkeyed), hempty]
            exact List.not_mem_nil
          have hunexpired : isExpired now d = false :=
            eq_false_of_ne_true fun hexpired => hnot ⟨hid ▸ hleft, hexpired⟩
          rw [← hsame, hleft, Option.filter_some, hunexpired]
          rfl
    · rw [hgone, hfound, Option.filter_some, hexpired]
      rfl
  lastSequence := h.lastSequence

theorem Thins.trans_spares (h : m.Thins now limit next taken) (hrest : next.Spares now last) :
    m.Spares now last where
  find?_eq id := by
    rw [hrest.find?_eq]
    rcases h.find?_cases id with hsame | ⟨hgone, d, hfound, hexpired⟩
    · rw [hsame]
    · rw [hgone, hfound, Option.filter_some, hexpired]
      rfl
  lastSequence := hrest.lastSequence.trans h.lastSequence

/-- The number of expired documents goes down with every purge that is not short. -/
theorem exists_sweep {scan : Memory → List Stored} {rounds : Nat}
    (hscan : ∀ m, (scan m).Perm m.documents.values) (hlimit : 0 < limit) (hkeyed : m.Keyed)
    (hrounds : (m.expired now).length / limit < rounds) :
    ∃ last, sweep scan now limit rounds m = some ((m.expired now).length, last) ∧
      m.Spares now last := by
  induction rounds generalizing m with
  | zero => exact absurd hrounds (Nat.not_lt_zero _)
  | succ more ih =>
      have hpurged : m.Thins now limit _ _ := thins_purgeScanned hkeyed (hscan m)
      unfold sweep
      cases hpurge : m.purgeScanned (scan m) now limit with
      | mk next taken =>
          rw [hpurge] at hpurged
          have hthins : m.Thins now limit next taken := hpurged
          have htaken := hthins.taken_eq
          have hexpired := hthins.expired
          by_cases hshort : taken < limit
          · have hcount : taken = (m.expired now).length := by omega
            simp only [if_pos hshort]
            exact ⟨next, by rw [hcount], hthins.spares hkeyed (by omega)⟩
          · have hfull : taken = limit := by omega
            have hdiv := Nat.div_eq_sub_div hlimit (show limit ≤ (m.expired now).length by omega)
            have hless : (next.expired now).length = (m.expired now).length - limit := by omega
            have hmore : (next.expired now).length / limit < more := by
              rw [hless]
              omega
            obtain ⟨last, hsweep, hspares⟩ := ih (hthins.keyed hkeyed) hmore
            simp only [if_neg hshort, hsweep, Option.map_some]
            exact ⟨last, by rw [Nat.add_comm, hexpired], hthins.trans_spares hspares⟩

end Memory

namespace Simulation.World

variable {w : World} {r : Reaper}

theorem calm_serve (clock : Instant) (store : StoreRef) (calls : List StoreCall) :
    ((start clock).serve store calls).Calm := by
  have hcalm : (start clock).Calm := calm_start clock
  unfold serve
  generalize start clock = first at hcalm
  induction calls generalizing first with
  | nil => exact hcalm
  | cons call rest ih => exact ih _ ((apply_follows first store call).calm hcalm)

theorem run_drain (hcalm : w.Calm) {now : Instant} {rounds count : Nat} {last : Memory}
    (hsweep : (w.memory r.store).sweep (fun m => m.documents.values) now r.batchSize rounds =
      some (count, last)) (total : Nat) :
    ∃ after, w.run (r.drain now total rounds).run = (.ok (some (total + count)), after) ∧
      Follows w after r.store last := by
  induction rounds generalizing w total count with
  | zero => cases hsweep
  | succ more ih =>
      have hfollows := call_follows hcalm r.store (.purge now r.batchSize)
      have hanswer := call_answer hcalm r.store (.purge now r.batchSize)
      have hpurged : w.run (Action.store r.store (.purge now r.batchSize)).run =
          (.ok ((w.memory r.store).purge now r.batchSize).2,
            (w.call r.store (.purge now r.batchSize)).2) :=
        Prod.ext hanswer rfl
      unfold Reaper.drain
      rw [run_action_bind hpurged]
      unfold Memory.sweep at hsweep
      change (if ((w.memory r.store).purge now r.batchSize).2 < r.batchSize then _ else
        (((w.memory r.store).purge now r.batchSize).1.sweep _ now r.batchSize more).map _) = _
        at hsweep
      split at hsweep
      · rename_i hshort
        cases hsweep
        rw [if_pos hshort]
        exact ⟨_, rfl, hfollows⟩
      · rename_i hfull
        obtain ⟨⟨rest, end_⟩, hrest, hsum⟩ := Option.map_eq_some_iff.mp hsweep
        cases hsum
        rw [if_neg hfull]
        have hmemory := hfollows.memory
        change _ = ((w.memory r.store).purge now r.batchSize).1 at hmemory
        rw [← hmemory] at hrest
        obtain ⟨after, hrun, hlast⟩ := ih (hfollows.calm hcalm) hrest
          (total + ((w.memory r.store).purge now r.batchSize).2)
        exact ⟨after, hrun.trans (by rw [Nat.add_assoc]; rfl), hfollows.trans hlast⟩

theorem run_pass (hcalm : w.Calm) (hkeyed : (w.memory r.store).Keyed) (hbatch : 0 < r.batchSize)
    {rounds : Nat}
    (hrounds : ((w.memory r.store).expired w.clock).length / r.batchSize < rounds) :
    ∃ after last, w.run (r.runOnce rounds).run =
        (.ok (some ((w.memory r.store).expired w.clock).length), after) ∧
      Follows w after r.store last ∧ (w.memory r.store).Spares w.clock last := by
  obtain ⟨last, hsweep, hspares⟩ :=
    Memory.exists_sweep (fun _ => List.Perm.refl _) hbatch hkeyed hrounds
  obtain ⟨after, hrun, hfollows⟩ := run_drain hcalm hsweep 0
  have hnow : w.run Action.now.run = (.ok w.clock, w) := rfl
  refine ⟨after, last, ?_, hfollows, hspares⟩
  unfold Reaper.runOnce
  rw [run_action_bind hnow, hrun, Nat.zero_add]

/-- Whatever was asked of a store and whatever the time, a pass of a reaper ends and takes all
expired documents, and it makes no difference in which order its purges come upon them. -/
theorem expired_removed (clock now : Instant) (store : StoreRef) (calls : List StoreCall)
    (o : Options) :
    let w : World := { (start clock).serve store calls with clock := now }
    let r := Reaper.ofOptions store o
    let m := w.memory store
    let count := (m.expired now).length
    ∀ rounds, count / r.batchSize < rounds →
      (∃ after, w.run (r.runOnce rounds).run = (.ok (some count), after) ∧
        m.Spares now (after.memory store) ∧
        ∀ other, other ≠ store → after.memory other = w.memory other) ∧
      ∀ scan : Memory → List Stored, (∀ m, (scan m).Perm m.documents.values) →
        ∃ last, m.sweep scan now r.batchSize rounds = some (count, last) ∧ m.Spares now last := by
  intro w r m count rounds hrounds
  have hserved := calm_serve clock store calls
  have hcalm : w.Calm := ⟨hserved.hooks, hserved.deadline⟩
  have hkeyed : m.Keyed := (numbered_serve clock store calls).keyed
  have hbatch : 0 < r.batchSize := Nat.lt_of_lt_of_le Nat.one_pos (Nat.le_max_right _ _)
  obtain ⟨after, last, hrun, hfollows, hspares⟩ := run_pass (r := r) hcalm hkeyed hbatch hrounds
  refine ⟨⟨after, hrun, hfollows.memory ▸ hspares, hfollows.others⟩, fun scan hscan => ?_⟩
  exact Memory.exists_sweep hscan hbatch hkeyed hrounds

namespace Expired

def calls : List StoreCall :=
  [.commit [.put ⟨"Lists", "a"⟩ .null (some .origin) .any, .put ⟨"Lists", "b"⟩ .null none .any,
    .put ⟨"Lists", "c"⟩ .null (some .least) .any, .put ⟨"Lists", "d"⟩ .null (some .greatest) .any]]

def world : World := (start .least).serve ⟨0⟩ calls

def options : Options := { Options.standard with batchSize := 2 }

end Expired

/-- The expired documents are just as many as a batch, so that the last purge takes nothing. -/
theorem expired_removed_twice :
    let w : World := { Expired.world with clock := .origin }
    let r := Reaper.ofOptions ⟨0⟩ Expired.options
    ((w.memory ⟨0⟩).expired .origin).length = 2 ∧ r.batchSize = 2 ∧
      (∃ after, w.run (r.runOnce 2).run = (.ok (some 2), after) ∧
        (w.memory ⟨0⟩).Spares .origin (after.memory ⟨0⟩)) ∧
      ∃ last, (w.memory ⟨0⟩).sweep (fun m => m.documents.values.reverse) .origin 2 2 =
        some (2, last) ∧ (w.memory ⟨0⟩).Spares .origin last := by
  intro w r
  have hcount : ((w.memory ⟨0⟩).expired .origin).length = 2 := by decide +kernel
  have hrounds : ((w.memory ⟨0⟩).expired .origin).length / r.batchSize < 2 := by
    rw [hcount]
    decide
  obtain ⟨⟨after, hrun, hspares, _⟩, hsweep⟩ :=
    expired_removed .least .origin ⟨0⟩ Expired.calls Expired.options 2 hrounds
  obtain ⟨last, hlast, hrest⟩ := hsweep (fun m => m.documents.values.reverse)
    fun m => List.reverse_perm m.documents.values
  refine ⟨hcount, rfl, ⟨after, ?_, hspares⟩, last, ?_, hrest⟩
  · exact hrun.trans (congrArg (fun n => (Except.ok (some n), after)) hcount)
  · exact hlast.trans (congrArg (fun n => some (n, last)) hcount)

end Simulation.World

end Jobyard
