import Jobyard.Connection.Collection
import Jobyard.Proofs.Collection.Slice
import Jobyard.Proofs.Counter.Convergence
import Jobyard.Proofs.Dict
import Jobyard.Proofs.Document.RoundTrip
import Jobyard.Proofs.Number.Value
import Jobyard.Proofs.Text.Bytes

/-!
Ranks of the members of a set. A member comes after all that precede it, so that its rank is their
number; the first member of a range of scores is the one that no other of them precedes.
-/

namespace Jobyard

section Sorted

variable {α : Type} {R : α → α → Prop} {xs : List α}

/-- In a sorted list an element stands behind as many others as come before it in the order. -/
theorem countP_of_pairwise [DecidableRel R] (hsorted : xs.Pairwise R)
    (hasymm : ∀ a b, R a b → ¬ R b a) {i : Nat} {x : α} (hx : xs[i]? = some x) :
    xs.countP (fun other => R other x) = i := by
  induction xs generalizing i with
  | nil => cases hx
  | cons first rest ih =>
      obtain ⟨hfirst, hrest⟩ := List.pairwise_cons.mp hsorted
      cases i with
      | zero =>
          cases hx
          refine List.countP_eq_zero.mpr fun other hother => ?_
          rcases List.mem_cons.mp hother with rfl | hlater
          · simpa using fun h => hasymm _ _ h h
          · simpa using hasymm _ _ (hfirst other hlater)
      | succ i =>
          have hbefore : R first x := hfirst x (List.mem_of_getElem? hx)
          rw [List.countP_cons, ih hrest hx, if_pos (decide_eq_true hbefore)]

theorem find?_eq_some_iff_of_pairwise (hsorted : xs.Pairwise R)
    (hasymm : ∀ a b, R a b → ¬ R b a) {p : α → Bool} {x : α} :
    xs.find? p = some x ↔ x ∈ xs ∧ p x = true ∧ ∀ other ∈ xs, p other = true → ¬ R other x := by
  induction xs with
  | nil => simp
  | cons first rest ih =>
      obtain ⟨hfirst, hrest⟩ := List.pairwise_cons.mp hsorted
      cases hp : p first with
      | true =>
          rw [List.find?_cons_of_pos hp]
          constructor
          · intro h
            cases h
            refine ⟨List.mem_cons_self, hp, fun other hother _ => ?_⟩
            rcases List.mem_cons.mp hother with rfl | hlater
            · exact fun h => hasymm _ _ h h
            · exact hasymm _ _ (hfirst other hlater)
          · rintro ⟨hmem, _, hleast⟩
            rcases List.mem_cons.mp hmem with rfl | hlater
            · rfl
            · exact absurd (hfirst x hlater) (hleast first List.mem_cons_self hp)
      | false =>
          have hne : ¬ p first = true := by rw [hp]; exact Bool.false_ne_true
          rw [List.find?_cons_of_neg hne, ih hrest]
          constructor
          · rintro ⟨hmem, hx, hleast⟩
            exact ⟨List.mem_cons_of_mem _ hmem, hx, List.forall_mem_cons.mpr
              ⟨fun h => absurd h hne, hleast⟩⟩
          · rintro ⟨hmem, hx, hleast⟩
            rcases List.mem_cons.mp hmem with rfl | hlater
            · exact absurd hx hne
            · exact ⟨hlater, hx, fun other hother => hleast other (List.mem_cons_of_mem _ hother)⟩

end Sorted

namespace ScoredSet

/-- One member before another one: by their scores, and members of one score by their bytes. -/
def Precedes (a b : String × Double) : Prop :=
  a.2.Precedes b.2 ∨ (a.2 = b.2 ∧ Text.bytes a.1 < Text.bytes b.1)

instance : DecidableRel Precedes := fun _ _ => inferInstanceAs (Decidable (_ ∨ _ ∧ _))

def rankOf (s : ScoredSet) (entry : String × Double) : Nat :=
  s.scores.entries.countP fun other => Precedes other entry

section Order

variable {a b : String × Double}

theorem precedes_iff : Precedes a b ↔ a.2.rank < b.2.rank ∨ (a.2.rank = b.2.rank ∧ a.1 < b.1) := by
  unfold Precedes
  rw [Double.rank_lt_iff, Text.bytes_lt_iff, Double.rank_injective.eq_iff]

theorem Precedes.asymm (h : Precedes a b) : ¬ Precedes b a := by
  rw [precedes_iff] at h ⊢
  rintro (hlater | ⟨hsame, hlater⟩) <;> rcases h with hfirst | ⟨hequal, hfirst⟩
  · omega
  · omega
  · omega
  · exact lt_asymm hfirst hlater

theorem rankedBefore_iff :
    rankedBefore a b = true ↔ a.2.rank < b.2.rank ∨ (a.2.rank = b.2.rank ∧ a.1 ≤ b.1) := by
  simp [rankedBefore]

theorem rankedBefore_trans (a b c : String × Double) (hab : rankedBefore a b = true)
    (hbc : rankedBefore b c = true) : rankedBefore a c = true := by
  rw [rankedBefore_iff] at *
  rcases hab with hab | ⟨hab, hfirst⟩ <;> rcases hbc with hbc | ⟨hbc, hsecond⟩
  · exact .inl (by omega)
  · exact .inl (by omega)
  · exact .inl (by omega)
  · exact .inr ⟨by omega, le_trans hfirst hsecond⟩

theorem rankedBefore_total (a b : String × Double) :
    (rankedBefore a b || rankedBefore b a) = true := by
  rw [Bool.or_eq_true, rankedBefore_iff, rankedBefore_iff]
  rcases lt_trichotomy a.2.rank b.2.rank with hless | hsame | hmore
  · exact .inl (.inl hless)
  · exact (le_total a.1 b.1).imp (fun h => .inr ⟨hsame, h⟩) fun h => .inr ⟨hsame.symm, h⟩
  · exact .inr (.inl hmore)

end Order

variable (s : ScoredSet)

theorem ranked_perm : s.ranked.Perm s.scores.entries := List.mergeSort_perm _ _

theorem mem_ranked_iff {member : String} {score : Double} :
    (member, score) ∈ s.ranked ↔ s.scores.find? member = some score :=
  s.ranked_perm.mem_iff.trans
    ⟨Entries.find?_eq_some_of_mem s.scores.sorted, Entries.mem_of_find?_eq_some⟩

theorem keys_nodup : (s.scores.entries.map (·.1)).Nodup := by
  refine (List.pairwise_map.mpr (s.scores.sorted.imp ?_))
  intro a b hlt heq
  rw [heq] at hlt
  exact nomatch hlt.symm.trans Std.ReflCmp.compare_self

theorem ranked_nodup : (s.ranked.map (·.1)).Nodup :=
  (s.ranked_perm.map (·.1)).nodup_iff.mpr s.keys_nodup

theorem ranked_pairwise : s.ranked.Pairwise Precedes := by
  have hsorted : (s.scores.entries.mergeSort rankedBefore).Pairwise
      fun a b => rankedBefore a b = true :=
    List.pairwise_mergeSort rankedBefore_trans rankedBefore_total s.scores.entries
  have hnames : s.ranked.Pairwise fun a b => a.1 ≠ b.1 := List.pairwise_map.mp s.ranked_nodup
  refine (hsorted.and hnames).imp ?_
  rintro a b ⟨hbefore, hne⟩
  rw [precedes_iff]
  rcases rankedBefore_iff.mp hbefore with hless | ⟨hsame, hle⟩
  · exact .inl hless
  · exact .inr ⟨hsame, lt_of_le_of_ne hle hne⟩

theorem rankOf_of_getElem? {i : Nat} {entry : String × Double} (h : s.ranked[i]? = some entry) :
    s.rankOf entry = i := by
  unfold rankOf
  rw [← s.ranked_perm.countP_eq]
  exact countP_of_pairwise s.ranked_pairwise (fun _ _ => Precedes.asymm) h

theorem getElem?_ranked_iff {i : Nat} {entry : String × Double} :
    s.ranked[i]? = some entry ↔ entry ∈ s.ranked ∧ s.rankOf entry = i := by
  constructor
  · exact fun h => ⟨List.mem_of_getElem? h, s.rankOf_of_getElem? h⟩
  · rintro ⟨hmem, rfl⟩
    obtain ⟨i, hi⟩ := List.mem_iff_getElem?.mp hmem
    rwa [s.rankOf_of_getElem? hi]

def Within (low high : Double) (entry : String × Double) : Prop :=
  s.scores.find? entry.1 = some entry.2 ∧ low.value ≤ entry.2.value ∧ entry.2.value ≤ high.value

/-- The member between two bounds that no other one of them precedes. -/
def Foremost (low high : Double) (member : String) : Prop :=
  ∃ score, s.Within low high (member, score) ∧
    ∀ other, s.Within low high other → ¬ Precedes other (member, score)

variable {s}

theorem within_iff (hfinite : s.Finite) {low high : Double} (hlow : low.isFinite)
    (hhigh : high.isFinite) {entry : String × Double} :
    s.Within low high entry ↔
      entry ∈ s.ranked ∧ (low.atMost entry.2 && entry.2.atMost high) = true := by
  rw [Within, ← s.mem_ranked_iff]
  refine and_congr_right fun hmem => ?_
  have hscore : entry.2.isFinite := hfinite entry (s.ranked_perm.mem_iff.mp hmem)
  rw [Bool.and_eq_true, Double.atMost_iff hlow hscore, Double.atMost_iff hscore hhigh]

theorem find?_ranked_iff (hfinite : s.Finite) {low high : Double} (hlow : low.isFinite)
    (hhigh : high.isFinite) {entry : String × Double} :
    s.ranked.find? (fun entry => low.atMost entry.2 && entry.2.atMost high) = some entry ↔
      s.Within low high entry ∧ ∀ other, s.Within low high other → ¬ Precedes other entry := by
  rw [find?_eq_some_iff_of_pairwise s.ranked_pairwise (fun _ _ => Precedes.asymm), ← and_assoc,
    ← within_iff hfinite hlow hhigh]
  refine and_congr_right fun _ => forall_congr' fun other => ?_
  rw [within_iff hfinite hlow hhigh, and_imp]

theorem find?_ranked_eq_none_iff (hfinite : s.Finite) {low high : Double} (hlow : low.isFinite)
    (hhigh : high.isFinite) :
    s.ranked.find? (fun entry => low.atMost entry.2 && entry.2.atMost high) = none ↔
      ∀ entry, ¬ s.Within low high entry := by
  rw [List.find?_eq_none]
  refine forall_congr' fun entry => ?_
  rw [within_iff hfinite hlow hhigh, not_and]

end ScoredSet

namespace Simulation.World

variable {w : World} {c : Connection} {key : String} {d : Stored} {s : ScoredSet}

theorem run_load_set (hcalm : w.Calm)
    (hstored : (w.memory c.store).find? (Document.idFor ScoredSet key) = some d)
    (hread : d.decode ScoredSet = .ok s) :
    w.run (c.load ScoredSet key).run = (.ok (some s), w) := by
  rw [run_connection_load hcalm, hstored]
  rw [Stored.decode] at hread
  cases hdecode : (Document.decode? d.body : Option ScoredSet) with
  | none =>
      rw [hdecode] at hread
      cases hread
  | some found =>
      rw [hdecode] at hread
      cases hread
      simp only [Tracked.ofLoaded, Tracked.ofStored, Tracked.decode, hdecode]

theorem run_firstByScore (hcalm : w.Calm)
    (hstored : (w.memory c.store).find? (Document.idFor ScoredSet key) = some d)
    (hread : d.decode ScoredSet = .ok s) {low high : Double} (hordered : high.less low = false) :
    w.run (c.firstByScore key low high).run =
      (.ok ((s.ranked.find? fun entry => low.atMost entry.2 && entry.2.atMost high).map (·.1)),
        w) := by
  unfold Connection.firstByScore
  rw [hordered, if_neg Bool.false_ne_true]
  exact run_action_bind (run_load_set hcalm hstored hread) _

theorem run_setRange (hcalm : w.Calm)
    (hstored : (w.memory c.store).find? (Document.idFor ScoredSet key) = some d)
    (hread : d.decode ScoredSet = .ok s) (first last : Nat) :
    w.run (c.setRange key first last).run = (.ok (slice first last (s.ranked.map (·.1))), w) :=
  run_action_bind (run_load_set hcalm hstored hread) _

/-- A set with finite scores is read in the order of its scores: each member once, the foremost
one between two bounds, and those of some ranks, which are counted in numbers up to a limit that the
set does not exceed. -/
theorem ranked_reads (hcalm : w.Calm)
    (hstored : (w.memory c.store).find? (Document.idFor ScoredSet key) = some d)
    (hread : d.decode ScoredSet = .ok s) (hfinite : s.Finite) :
    ((∀ member score, (member, score) ∈ s.ranked ↔ s.scores.find? member = some score) ∧
      (s.ranked.map (·.1)).Nodup ∧ s.ranked.Pairwise ScoredSet.Precedes) ∧
    (∀ low high : Double, low.isFinite → high.isFinite → low.value ≤ high.value →
      ∃ first, w.run (c.firstByScore key low high).run = (.ok first, w) ∧
        (first = none ↔ ∀ entry, ¬ s.Within low high entry) ∧
        ∀ member, first = some member ↔ s.Foremost low high member) ∧
    ∀ first last, ∃ range, w.run (c.setRange key first last).run = (.ok range, w) ∧
      (∀ i member, range[i]? = some member ↔ first + i ≤ last ∧
        ∃ score, s.scores.find? member = some score ∧ s.rankOf (member, score) = first + i) ∧
      ∀ limit, s.ranked.length ≤ limit →
        range = saturatedSlice limit first last (s.ranked.map (·.1)) := by
  refine ⟨⟨fun _ _ => s.mem_ranked_iff, s.ranked_nodup, s.ranked_pairwise⟩,
    fun low high hlow hhigh hordered => ?_, fun first last => ?_⟩
  · have hnot : high.less low = false := by
      rw [← Bool.not_eq_true, Double.less_iff hhigh hlow]
      exact not_lt.mpr hordered
    refine ⟨_, run_firstByScore hcalm hstored hread hnot, ?_, fun member => ?_⟩
    · rw [Option.map_eq_none_iff, ScoredSet.find?_ranked_eq_none_iff hfinite hlow hhigh]
    · rw [Option.map_eq_some_iff]
      constructor
      · rintro ⟨⟨_, score⟩, hfound, rfl⟩
        exact ⟨score, (ScoredSet.find?_ranked_iff hfinite hlow hhigh).mp hfound⟩
      · rintro ⟨score, hforemost⟩
        exact ⟨(member, score), (ScoredSet.find?_ranked_iff hfinite hlow hhigh).mpr hforemost, rfl⟩
  · refine ⟨_, run_setRange hcalm hstored hread first last, fun i member => ?_, fun limit hlimit =>
      (saturatedSlice_eq _ (by rwa [List.length_map]) first last).symm⟩
    rw [getElem?_slice]
    split
    · rename_i hwithin
      rw [List.getElem?_map, Option.map_eq_some_iff, and_iff_right hwithin]
      constructor
      · rintro ⟨⟨_, score⟩, hplace, rfl⟩
        obtain ⟨hmem, hrank⟩ := s.getElem?_ranked_iff.mp hplace
        exact ⟨score, s.mem_ranked_iff.mp hmem, hrank⟩
      · rintro ⟨score, hmember, hrank⟩
        exact ⟨(member, score),
          s.getElem?_ranked_iff.mpr ⟨s.mem_ranked_iff.mpr hmember, hrank⟩, rfl⟩
    · rename_i hwithin
      exact iff_of_false (fun h => nomatch h) fun h => hwithin h.1

namespace Sample

/-- Members with a negative score, with a negative zero and with two zeros. -/
def ranks : ScoredSet :=
  ⟨Dict.ofList [("a", .zero), ("b", .zero), ("c", .ofMagnitude true 0), ("d", .ofMagnitude true 1)]⟩

def withRanks : World :=
  ((World.start .origin).apply ⟨0⟩ (.commit [.put (Document.idFor ScoredSet "schedule")
    (Document.encode ranks) none .absent])).2

end Sample

theorem ranked_reads_zeros :
    let c := Sample.connection
    let w := Sample.withRanks
    let s := Sample.ranks
    s.Finite ∧
      (∃ first, w.run (c.firstByScore "schedule" .zero (.ofMagnitude true 0)).run =
          (.ok first, w) ∧
        (first = none ↔ ∀ entry, ¬ s.Within .zero (.ofMagnitude true 0) entry) ∧
        ∀ member, first = some member ↔ s.Foremost .zero (.ofMagnitude true 0) member) ∧
      ∃ range, w.run (c.setRange "schedule" 1 (2 ^ 64 - 1)).run = (.ok range, w) ∧
        ∀ i member, range[i]? = some member ↔ 1 + i ≤ 2 ^ 64 - 1 ∧
          ∃ score, s.scores.find? member = some score ∧ s.rankOf (member, score) = 1 + i := by
  intro c w s
  have hfinite : s.Finite := by decide
  have hzero : Double.zero.value ≤ (Double.ofMagnitude true 0).value :=
    Double.value_le_iff.mpr (by decide)
  have hstored : (w.memory ⟨0⟩).find? (Document.idFor ScoredSet "schedule") =
      some ⟨Document.idFor ScoredSet "schedule", Document.encode s, 1, 1, none⟩ := rfl
  have hread : Stored.decode ScoredSet
      ⟨Document.idFor ScoredSet "schedule", Document.encode s, 1, 1, none⟩ = .ok s := by
    unfold Stored.decode
    rw [hfinite.lasting]
  obtain ⟨_, hfirst, hrange⟩ := ranked_reads (c := c) ⟨rfl, rfl⟩ hstored hread hfinite
  obtain ⟨range, hrun, hmembers, _⟩ := hrange 1 (2 ^ 64 - 1)
  exact ⟨hfinite, hfirst _ _ (by decide) (by decide) hzero, range, hrun, hmembers⟩

example : Sample.ranks.ranked.map (·.1) = ["d", "c", "a", "b"] := by cbv

end Simulation.World

end Jobyard
