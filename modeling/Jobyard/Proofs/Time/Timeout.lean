import Jobyard.Document.QueueEntry
import Jobyard.Proofs.Time.Instant
import Jobyard.Time.Duration

/-!
Timeouts. Whether a timeout has passed is a comparison of nanoseconds; the sum of a point of time
and the timeout decides it, wherever the calendar ends, and so does the point of time that lies the
timeout back.
-/

namespace Jobyard

namespace Instant

/-- Nanoseconds since the origin. Within a leap second time stands at the end of the second
before. -/
def elapsed (t : Instant) : Int :=
  (t.day * secondsPerDay + t.second) * nanosPerSecond + min t.nano nanosPerSecond

theorem leastDay_eq : leastDay = -96465292 := by decide

theorem greatestDay_eq : greatestDay = 95026236 := by decide

theorem bounds (t : Instant) :
    -96465292 ≤ t.day ∧ t.day ≤ 95026236 ∧ t.second < 86400 ∧ t.nano < 2000000000 := by
  obtain ⟨hleast, hgreatest, hsecond, hnano, _⟩ := t.valid
  rw [leastDay_eq] at hleast
  rw [greatestDay_eq] at hgreatest
  exact ⟨hleast, hgreatest, hsecond, hnano⟩

theorem nano_lt_of_not_leap {t : Instant} (h : t.isLeap = false) : t.nano < 1000000000 :=
  Nat.not_le.mp (of_decide_eq_false h)

theorem elapsed_eq (t : Instant) :
    t.elapsed = (t.day * 86400 + t.second) * 1000000000 + min t.nano 1000000000 := rfl

theorem place_eq (t : Instant) :
    t.place = (t.day * 86400 + t.second) * 2000000000 + t.nano := rfl

theorem before_iff_elapsed {s t : Instant} (hs : s.isLeap = false) :
    s.before t = true ↔ s.elapsed < t.elapsed := by
  have hnano := nano_lt_of_not_leap hs
  have hbound := t.bounds.2.2.2
  rw [before_iff, place_eq, place_eq, elapsed_eq, elapsed_eq]
  omega

theorem exists_ofNanos? (day nanos : Int)
    (hleast : -96465292 * 86400000000000 ≤ day * 86400000000000 + nanos)
    (hgreatest : day * 86400000000000 + nanos < 95026237 * 86400000000000) :
    ∃ t, ofNanos? day nanos = some t := by
  refine ⟨_, dif_pos ⟨?_, ?_, ?_, ?_, fun hge => ?_⟩⟩
  · rw [leastDay_eq]
    simp only [nanosPerSecond, secondsPerDay]
    omega
  · rw [greatestDay_eq]
    simp only [nanosPerSecond, secondsPerDay]
    omega
  · simp only [nanosPerSecond, secondsPerDay]
    omega
  · simp only [nanosPerSecond]
    omega
  · simp only [nanosPerSecond] at hge
    omega

theorem plus?_of_not_leap {t : Instant} (h : t.isLeap = false) (span : Span) :
    t.plus? span = ofNanos? t.day (t.second * 1000000000 + t.nano + span.nanos) := by
  have hsum : span.seconds * 1000000000 + span.fraction = span.nanos := span.seconds_fraction
  unfold plus?
  simp only [h, Bool.false_eq_true, false_and, if_false, nanosPerSecond]
  congr 1
  omega

/-- The same sum from within a leap second, when it leads back over a second or more. -/
theorem plus?_of_back {t : Instant} {span : Span} (h : t.isLeap = true) (hback : span.seconds < 0) :
    t.plus? span = ofNanos? t.day (t.second * 1000000000 + t.nano + span.nanos) := by
  have hsum : span.seconds * 1000000000 + span.fraction = span.nanos := span.seconds_fraction
  have hne : span.seconds ≠ 0 := Int.ne_of_lt hback
  unfold plus?
  simp only [h, hne, hback, true_and, false_and, and_self, if_false, if_true, nanosPerSecond]
  congr 1
  omega

theorem elapsed_ofNanos? {day nanos : Int} {t : Instant} (h : ofNanos? day nanos = some t) :
    t.elapsed = day * 86400000000000 + nanos ∧ t.isLeap = false := by
  obtain ⟨hday, hsecond, hnano⟩ := ofParts?_eq_some h
  simp only [nanosPerSecond, secondsPerDay] at hday hsecond hnano
  have hbelow : t.nano < 1000000000 := by omega
  refine ⟨?_, decide_eq_false (Nat.not_le.mpr hbelow)⟩
  rw [elapsed_eq]
  omega

/-- A point of time lies before another one by more than a span exactly when the sum of the two
comes before; a sum beyond the calendar never does. -/
theorem plus?_before_iff {t : Instant} {span : Span} (ht : t.isLeap = false)
    (hspan : 0 ≤ span.nanos) (now : Instant) :
    (∃ sum, t.plus? span = some sum ∧ sum.before now = true) ↔
      t.elapsed + span.nanos < now.elapsed := by
  have hnano := nano_lt_of_not_leap ht
  rw [plus?_of_not_leap ht]
  constructor
  · rintro ⟨sum, hsum, hbefore⟩
    obtain ⟨helapsed, hleap⟩ := elapsed_ofNanos? hsum
    rw [before_iff_elapsed hleap, helapsed] at hbefore
    rw [elapsed_eq t]
    omega
  · intro hlt
    obtain ⟨hleast, _⟩ := t.bounds
    obtain ⟨_, hgreatest, hsecond, _⟩ := now.bounds
    have hnow := now.elapsed_eq
    rw [elapsed_eq t] at hlt
    obtain ⟨sum, hsum⟩ := exists_ofNanos? t.day
      (t.second * 1000000000 + t.nano + span.nanos) (by omega) (by omega)
    obtain ⟨helapsed, hleap⟩ := elapsed_ofNanos? hsum
    refine ⟨sum, hsum, (before_iff_elapsed hleap).mpr ?_⟩
    omega

theorem before_minus? {t now : Instant} {span : Span} (ht : t.isLeap = false)
    (hspan : 0 ≤ span.nanos) (h : t.elapsed + span.nanos < now.elapsed) :
    ∃ cutoff, now.minus? span = some cutoff ∧ t.before cutoff = true := by
  have hnano := nano_lt_of_not_leap ht
  obtain ⟨hleast, _⟩ := t.bounds
  obtain ⟨_, hgreatest, hsecond, hlimit⟩ := now.bounds
  rw [elapsed_eq, elapsed_eq] at h
  have hnegated : span.negated.nanos = -span.nanos := rfl
  have hseconds : span.negated.seconds = -span.seconds := Int.neg_tdiv _ _
  have hfraction : span.negated.fraction = -span.fraction := Int.neg_tmod _ _
  have hpositive : 0 ≤ span.seconds := Int.tdiv_nonneg hspan (by decide)
  have hsum : span.seconds * 1000000000 + span.fraction = span.nanos := span.seconds_fraction
  have hrest : 0 ≤ span.fraction := Int.tmod_nonneg _ hspan
  by_cases hstays : now.isLeap = true ∧ span.seconds = 0
  · -- Less than a second before, and that within the same second.
    obtain ⟨hleap, hzero⟩ := hstays
    have hge : 1000000000 ≤ now.nano := of_decide_eq_true hleap
    have hinside : now.isLeap = true ∧ span.negated.seconds = 0 ∧
        now.nano + span.negated.fraction < 2 * nanosPerSecond := by
      refine ⟨hleap, by omega, ?_⟩
      simp only [nanosPerSecond]
      omega
    have hcutoff : now.minus? span =
        ofParts? now.day now.second (now.nano + span.negated.fraction).toNat := by
      unfold minus? plus?
      exact if_pos hinside
    have hvalid : Valid now.day now.second (now.nano + span.negated.fraction).toNat := by
      obtain ⟨h₁, h₂, h₃, _, hminute⟩ := now.valid
      refine ⟨h₁, h₂, h₃, ?_, fun _ => hminute hge⟩
      simp only [nanosPerSecond]
      omega
    refine ⟨_, hcutoff.trans (dif_pos hvalid), ?_⟩
    rw [before_iff, place_eq, place_eq]
    simp only
    omega
  · have hsame : now.minus? span =
          ofNanos? now.day (now.second * 1000000000 + now.nano + span.negated.nanos) ∧
        now.nano - span.nanos < 1000000000 := by
      cases hleap : now.isLeap with
      | false =>
          have hplain := nano_lt_of_not_leap hleap
          exact ⟨plus?_of_not_leap hleap _, by omega⟩
      | true =>
          have hnonzero : span.seconds ≠ 0 := fun hzero => hstays ⟨hleap, hzero⟩
          exact ⟨plus?_of_back hleap (by omega), by omega⟩
    obtain ⟨cutoff, hcutoff⟩ := exists_ofNanos? now.day
      (now.second * 1000000000 + now.nano + span.negated.nanos) (by omega) (by omega)
    refine ⟨cutoff, hsame.1.trans hcutoff, (before_iff_elapsed ht).mpr ?_⟩
    rw [(elapsed_ofNanos? hcutoff).1, elapsed_eq]
    omega

/-- No two points of time are further apart than spans reach. -/
theorem elapsed_sub_lt (s t : Instant) : t.elapsed - s.elapsed < Span.greatest.nanos := by
  obtain ⟨hleast, _⟩ := s.bounds
  obtain ⟨_, hgreatest, hsecond, _⟩ := t.bounds
  have hspan : Span.greatest.nanos = 9223372036854775807000000 := rfl
  rw [elapsed_eq, elapsed_eq, hspan]
  omega

end Instant

namespace Duration

theorem nanos_toSpan_nonneg (d : Duration) : 0 ≤ d.toSpan.nanos := by
  unfold toSpan toSpan?
  split
  · exact Int.natCast_nonneg d.nanos
  · decide

/-- A timeout that is too long for a span never passes, and neither does the greatest span. -/
theorem toSpan_lt_iff (d : Duration) (s t : Instant) :
    s.elapsed + d.toSpan.nanos < t.elapsed ↔ s.elapsed + d.nanos < t.elapsed := by
  unfold toSpan toSpan?
  split
  · exact Iff.rfl
  · rename_i hlong
    have hfar := s.elapsed_sub_lt t
    have hgreatest : (Option.getD none Span.greatest).nanos = Span.greatest.nanos := rfl
    rw [hgreatest]
    omega

end Duration

namespace QueueEntry

variable {e : QueueEntry}

theorem isClaimable_of_waiting (h : e.fetchedAt = none) (now : Instant) (timeout : Span) :
    e.isClaimable now timeout = true := by
  unfold isClaimable
  rw [h]

theorem isClaimable_iff_of_fetched {t : Instant} (h : e.fetchedAt = some t)
    (ht : t.isLeap = false) (now : Instant) (timeout : Duration) :
    e.isClaimable now timeout.toSpan = true ↔ t.elapsed + timeout.nanos < now.elapsed := by
  rw [← timeout.toSpan_lt_iff, ← Instant.plus?_before_iff ht timeout.nanos_toSpan_nonneg]
  unfold isClaimable
  simp only [h]
  cases t.plus? timeout.toSpan with
  | none => exact ⟨(nomatch ·), fun ⟨_, hsome, _⟩ => nomatch hsome⟩
  | some sum =>
      constructor
      · exact fun hbefore => ⟨sum, rfl, hbefore⟩
      · rintro ⟨_, ⟨⟩, hbefore⟩
        exact hbefore

end QueueEntry

end Jobyard
