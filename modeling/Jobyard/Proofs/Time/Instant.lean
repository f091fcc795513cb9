import Jobyard.Time.Instant

/-!
The order of points of time, and its agreement with spans that do not lead back.
-/

namespace Jobyard.Instant

theorem before_iff (s t : Instant) : s.before t = true ↔ s.place < t.place := decide_eq_true_iff

theorem before_of_before_of_le {s t u : Instant} (hst : s.before t = true)
    (htu : t.place ≤ u.place) : s.before u = true :=
  (before_iff s u).mpr (Int.lt_of_lt_of_le ((before_iff s t).mp hst) htu)

theorem before_trans {s t u : Instant} (hst : s.before t = true) (htu : t.before u = true) :
    s.before u = true :=
  before_of_before_of_le hst (Int.le_of_lt ((before_iff t u).mp htu))

theorem ofParts?_eq_some {day : Int} {second nano : Nat} {t : Instant}
    (h : ofParts? day second nano = some t) : t.day = day ∧ t.second = second ∧ t.nano = nano := by
  unfold ofParts? at h
  split at h
  · cases h
    exact ⟨rfl, rfl, rfl⟩
  · cases h

theorem place_ofNanos? {day nanos : Int} {t : Instant} (h : ofNanos? day nanos = some t) :
    t.place = (day * 86400 + nanos / 1000000000) * 2000000000 + nanos % 1000000000 := by
  obtain ⟨hday, hsecond, hnano⟩ := ofParts?_eq_some h
  simp only [nanosPerSecond, secondsPerDay] at hday hsecond hnano
  simp only [place, nanosPerSecond, secondsPerDay, hday, hsecond, hnano]
  omega

theorem place_le_of_plus? {t u : Instant} {span : Span} (hspan : 0 ≤ span.nanos)
    (h : t.plus? span = some u) : t.place ≤ u.place := by
  have hsum : span.seconds * 1000000000 + span.fraction = span.nanos := span.seconds_fraction
  have hseconds : 0 ≤ span.seconds := Int.tdiv_nonneg hspan (by decide)
  have hfraction : 0 ≤ span.fraction := Int.tmod_nonneg _ hspan
  have hbound : t.nano < 2000000000 := t.valid.2.2.2.1
  have hplace : t.place = (t.day * 86400 + t.second) * 2000000000 + t.nano := rfl
  unfold plus? at h
  simp only at h
  split at h
  · rename_i hinside
    obtain ⟨hday, hsecond, hnano⟩ := ofParts?_eq_some h
    simp only [place, nanosPerSecond, secondsPerDay, hday, hsecond, hnano]
    omega
  · rename_i hleaves
    have hforward : ¬ (t.isLeap = true ∧ span.seconds < 0) := fun hback =>
      Int.not_le.mpr hback.2 hseconds
    rw [if_neg hforward] at h
    have hu := place_ofNanos? h
    by_cases hleap : t.isLeap
    · have hge : 1000000000 ≤ t.nano := of_decide_eq_true hleap
      -- A point that leaves its leap second gets past the end of it.
      have hfar : span.seconds ≠ 0 ∨ 2000000000 ≤ t.nano + span.fraction := by
        by_cases hzero : span.seconds = 0
        · exact .inr (Int.not_lt.mp fun hlt => hleaves ⟨hleap, hzero, hlt⟩)
        · exact .inl hzero
      rw [if_pos hleap] at hu
      simp only [nanosPerSecond] at hu
      omega
    · have hlt : t.nano < 1000000000 := Nat.not_le.mp fun hge => hleap (decide_eq_true hge)
      rw [if_neg hleap] at hu
      simp only [nanosPerSecond] at hu
      omega

end Jobyard.Instant
