import Jobyard.Proofs.Time.Calendar
import Jobyard.Proofs.Time.Timeout

/-!
Hours and days as stretches of time. Whatever lies in an hour has the start of that hour, and
whatever lies in a day has that day, leap seconds included.
-/

namespace Jobyard

namespace Instant

def covers (start : Instant) (length : Span) (t : Instant) : Bool :=
  start.atOrBefore t && (start.plus? length).any fun stop => t.before stop

def hourLength : Span := .ofSeconds 3600

def dayLength : Span := .ofSeconds 86400

theorem eq_of_parts {s t : Instant} (hday : s.day = t.day) (hsecond : s.second = t.second)
    (hnano : s.nano = t.nano) : s = t := by
  cases s
  cases t
  cases hday
  cases hsecond
  cases hnano
  rfl

theorem eq_of_elapsed {s t : Instant} (hs : s.isLeap = false) (ht : t.isLeap = false)
    (h : s.elapsed = t.elapsed) : s = t := by
  have hsnano := nano_lt_of_not_leap hs
  have htnano := nano_lt_of_not_leap ht
  have hsbound := s.bounds.2.2.1
  have htbound := t.bounds.2.2.1
  rw [elapsed_eq, elapsed_eq] at h
  apply eq_of_parts <;> omega

theorem plus?_eq_some_iff {t u : Instant} (h : t.isLeap = false) (span : Span) :
    t.plus? span = some u ↔ u.isLeap = false ∧ u.elapsed = t.elapsed + span.nanos := by
  have hnano := nano_lt_of_not_leap h
  have helapsed := t.elapsed_eq
  have hsum : ∀ v, t.plus? span = some v →
      v.isLeap = false ∧ v.elapsed = t.elapsed + span.nanos := by
    intro v hv
    rw [plus?_of_not_leap h] at hv
    obtain ⟨hv, hleap⟩ := elapsed_ofNanos? hv
    exact ⟨hleap, by omega⟩
  constructor
  · exact hsum u
  · rintro ⟨hleap, hu⟩
    have hubound := u.bounds
    have hunano := nano_lt_of_not_leap hleap
    have huelapsed := u.elapsed_eq
    obtain ⟨v, hv⟩ : ∃ v, t.plus? span = some v := by
      rw [plus?_of_not_leap h]
      exact exists_ofNanos? _ _ (by omega) (by omega)
    obtain ⟨hvleap, hvsum⟩ := hsum v hv
    rw [hv, eq_of_elapsed hvleap hleap (hvsum.trans hu.symm)]

theorem isHour_iff (h : Instant) : h.hourStart = h ↔ h.second % 3600 = 0 ∧ h.nano = 0 := by
  constructor
  · intro hstart
    have hsecond : h.second - h.second % 3600 = h.second := congrArg second hstart
    have hnano : 0 = h.nano := congrArg nano hstart
    omega
  · rintro ⟨hsecond, hnano⟩
    refine eq_of_parts rfl ?_ hnano.symm
    change h.second - h.second % 3600 = h.second
    omega

theorem not_leap_of_nano {t : Instant} (h : t.nano = 0) : t.isLeap = false := by
  unfold isLeap
  rw [h]
  decide

section Stretch

variable {start t : Instant}

theorem covers_iff (hnano : start.nano = 0) {seconds : Nat} (hlast : start.day < greatestDay)
    (hlength : seconds ≤ 86400) :
    start.covers (.ofSeconds seconds) t = true ↔
      start.day * 86400 + start.second ≤ t.day * 86400 + t.second ∧
        t.day * 86400 + t.second < start.day * 86400 + start.second + seconds := by
  have hleap := not_leap_of_nano hnano
  have hbounds := start.bounds
  have htnano := t.bounds.2.2.2
  rw [greatestDay_eq] at hlast
  obtain ⟨stop, hstop⟩ : ∃ stop, start.plus? (.ofSeconds seconds) = some stop := by
    rw [plus?_of_not_leap hleap]
    apply exists_ofNanos?
    · simp only [Span.ofSeconds, nanosPerSecond]
      omega
    · simp only [Span.ofSeconds, nanosPerSecond]
      omega
  obtain ⟨hstopLeap, hsum⟩ := (plus?_eq_some_iff hleap _).mp hstop
  have hstopNano := nano_lt_of_not_leap hstopLeap
  simp only [elapsed_eq, Span.ofSeconds, nanosPerSecond] at hsum
  unfold covers
  rw [hstop, Option.any_some, Bool.and_eq_true, atOrBefore, decide_eq_true_iff, before_iff,
    place_eq, place_eq, place_eq]
  omega

theorem covers_hour_iff (hhour : start.hourStart = start) (hlast : start.day < greatestDay) :
    start.covers hourLength t = true ↔ t.day = start.day ∧ t.hour = start.hour := by
  obtain ⟨hsecond, hnano⟩ := (isHour_iff start).mp hhour
  have hsbound := start.bounds.2.2.1
  have htbound := t.bounds.2.2.1
  unfold hourLength hour
  rw [show (3600 : Int) = (3600 : Nat) from rfl, covers_iff hnano hlast (by decide)]
  omega

theorem covers_day_iff (hsecond : start.second = 0) (hnano : start.nano = 0)
    (hlast : start.day < greatestDay) : start.covers dayLength t = true ↔ t.day = start.day := by
  have htbound := t.bounds.2.2.1
  unfold dayLength
  rw [show (86400 : Int) = (86400 : Nat) from rfl, covers_iff hnano hlast (by decide)]
  omega

end Stretch

/-- Neither the first year of the calendar nor the last. -/
theorem day_of_year {t : Instant} (hfirst : leastYear < t.date.year)
    (hlast : t.date.year < greatestYear) : leastDay + 365 ≤ t.day ∧ t.day + 365 ≤ greatestDay := by
  obtain ⟨hstart, hend⟩ := Calendar.yearStart_yearOf t.day
  change -262143 < Calendar.yearOf t.day at hfirst
  change Calendar.yearOf t.day < 262142 at hlast
  rw [leastDay_eq, greatestDay_eq]
  simp only [Calendar.yearStart] at hstart hend
  omega

theorem isHour_hourStart (t : Instant) : t.hourStart.hourStart = t.hourStart := by
  rw [isHour_iff]
  have hsecond : t.hourStart.second = t.second - t.second % 3600 := rfl
  exact ⟨by omega, rfl⟩

structure HoursBack (latest : Instant) (k : Nat) (h : Instant) : Prop where
  hour : h.hourStart = h
  forward : h.plus? (.ofSeconds ((k : Int) * 3600)) = some latest

theorem HoursBack.place {latest h : Instant} {k : Nat} (hback : HoursBack latest k h) :
    h.place + k * 7200000000000 = latest.place := by
  obtain ⟨-, hnano⟩ := (isHour_iff h).mp hback.hour
  have hleap := not_leap_of_nano hnano
  obtain ⟨hlatest, hsum⟩ := (plus?_eq_some_iff hleap _).mp hback.forward
  have hlatestNano := nano_lt_of_not_leap hlatest
  simp only [elapsed_eq, Span.ofSeconds, nanosPerSecond] at hsum
  rw [place_eq, place_eq]
  omega

theorem exists_hoursBack {t : Instant} (hday : leastDay < t.day) {k : Nat} (hk : k < 24) :
    ∃ h, t.hourStart.minus? (.ofSeconds ((k : Int) * 3600)) = some h ∧
      HoursBack t.hourStart k h := by
  obtain ⟨hsecond, hnano⟩ := (isHour_iff t.hourStart).mp t.isHour_hourStart
  have hleap := not_leap_of_nano hnano
  have hbounds := t.hourStart.bounds
  have hsame : t.hourStart.day = t.day := rfl
  rw [leastDay_eq] at hday
  obtain ⟨h, hminus⟩ : ∃ h, t.hourStart.minus? (.ofSeconds ((k : Int) * 3600)) = some h := by
    unfold minus?
    rw [plus?_of_not_leap hleap]
    apply exists_ofNanos?
    · simp only [Span.negated, Span.ofSeconds, nanosPerSecond]
      omega
    · simp only [Span.negated, Span.ofSeconds, nanosPerSecond]
      omega
  obtain ⟨hhleap, hsum⟩ := (plus?_eq_some_iff hleap _).mp hminus
  have hhnano := nano_lt_of_not_leap hhleap
  have hhsecond := h.bounds.2.2.1
  refine ⟨h, hminus, (isHour_iff h).mpr ?_, (plus?_eq_some_iff hhleap _).mpr ⟨hleap, ?_⟩⟩
  · simp only [elapsed_eq, Span.negated, Span.ofSeconds, nanosPerSecond] at hsum
    omega
  · simp only [Span.negated] at hsum
    omega

end Instant

namespace Date

def midnight? (d : Date) : Option Instant :=
  d.toDay?.bind fun day => Instant.ofParts? day 0 0

def covers (d : Date) (t : Instant) : Bool :=
  d.midnight?.any fun midnight => midnight.covers Instant.dayLength t

theorem covers_ofDay_iff {day : Int} (hfirst : Instant.leastDay ≤ day)
    (hlast : day < Instant.greatestDay) (t : Instant) :
    (ofDay day).covers t = true ↔ t.day = day := by
  have hvalid : Instant.Valid day 0 0 :=
    ⟨hfirst, Int.le_of_lt hlast, by decide, by decide, fun h => absurd h (by decide)⟩
  have hmidnight : (ofDay day).midnight? = some ⟨day, 0, 0, hvalid⟩ := by
    unfold midnight?
    rw [toDay?_ofDay, Option.bind_some]
    exact dif_pos hvalid
  unfold covers
  rw [hmidnight, Option.any_some]
  exact Instant.covers_day_iff rfl rfl hlast

end Date

end Jobyard
