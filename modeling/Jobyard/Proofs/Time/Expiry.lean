import Jobyard.Proofs.Time.Timeout
import Jobyard.Time.Expiry

/-!
Expiry times in nanoseconds: the sum of a point of time and a length, or the end of the calendar if
that comes first. Outside of leap seconds the time left and the order of two points are differences
of nanoseconds.
-/

namespace Jobyard.Instant

theorem elapsed_greatest : greatest.elapsed = 95026237 * 86400000000000 - 1 := by decide

theorem elapsed_le_greatest {t : Instant} (h : t.isLeap = false) :
    t.elapsed ≤ greatest.elapsed := by
  obtain ⟨_, hday, hsecond, _⟩ := t.bounds
  have hnano := nano_lt_of_not_leap h
  rw [elapsed_greatest, elapsed_eq]
  omega

theorem elapsed_plus? {t : Instant} (h : t.isLeap = false) {span : Span} (hspan : 0 ≤ span.nanos) :
    ((t.plus? span).getD greatest).elapsed = min (t.elapsed + span.nanos) greatest.elapsed ∧
      ((t.plus? span).getD greatest).isLeap = false := by
  have hnano := nano_lt_of_not_leap h
  have helapsed := t.elapsed_eq
  rw [plus?_of_not_leap h]
  cases hsum : ofNanos? t.day (t.second * 1000000000 + t.nano + span.nanos) with
  | some sum =>
      obtain ⟨hsame, hplain⟩ := elapsed_ofNanos? hsum
      have hlast := elapsed_le_greatest hplain
      rw [Option.getD_some]
      exact ⟨by omega, hplain⟩
  | none =>
      obtain ⟨hleast, _⟩ := t.bounds
      refine ⟨?_, rfl⟩
      -- A sum within the calendar would be a point of time.
      have hfar : ¬ t.elapsed + span.nanos < 95026237 * 86400000000000 := by
        intro hnear
        obtain ⟨sum, hexists⟩ := exists_ofNanos? t.day
          (t.second * 1000000000 + t.nano + span.nanos) (by omega) (by omega)
        rw [hsum] at hexists
        cases hexists
      rw [Option.getD_none, elapsed_greatest]
      omega

/-- Both a length that no span has and a sum beyond the calendar lead to its end. -/
theorem elapsed_expiresIn {now : Instant} (h : now.isLeap = false) (length : Duration) :
    (now.expiresIn length).elapsed = min (now.elapsed + length.nanos) greatest.elapsed ∧
      (now.expiresIn length).isLeap = false := by
  unfold expiresIn Duration.toSpan?
  split
  · exact elapsed_plus? h (Int.natCast_nonneg length.nanos)
  · rename_i hlong
    have hreach := elapsed_sub_lt now greatest
    refine ⟨?_, rfl⟩
    change greatest.elapsed = _
    omega

theorem nanos_since {s t : Instant} (hs : s.isLeap = false) (ht : t.isLeap = false) :
    (t.since s).nanos = t.elapsed - s.elapsed := by
  have hsnano := nano_lt_of_not_leap hs
  have htnano := nano_lt_of_not_leap ht
  unfold since
  simp only [hs, ht, Bool.false_eq_true, and_false, if_false, elapsed_eq, secondsPerDay,
    nanosPerSecond]
  omega

theorem atOrBefore_iff_elapsed {s t : Instant} (hs : s.isLeap = false) (ht : t.isLeap = false) :
    s.atOrBefore t = true ↔ s.elapsed ≤ t.elapsed := by
  have hsnano := nano_lt_of_not_leap hs
  have htnano := nano_lt_of_not_leap ht
  unfold atOrBefore
  rw [decide_eq_true_iff, place_eq, place_eq, elapsed_eq, elapsed_eq]
  omega

end Jobyard.Instant
