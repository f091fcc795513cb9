import Jobyard.Time.Calendar

/-!
Points of time with nanoseconds, and signed spans between them. A point inside a leap second has
a fraction of one second or more and lies in the last second of its minute.
-/

namespace Jobyard

/-- A signed number of nanoseconds. -/
structure Span where
  nanos : Int
deriving DecidableEq, Repr

def nanosPerSecond : Nat := 1000000000

def secondsPerDay : Nat := 86400

namespace Span

/-- Spans reach this many milliseconds in both directions. -/
def greatestMillis : Int := 0x7fffffffffffffff

def greatest : Span := ⟨greatestMillis * 1000000⟩

def negated (s : Span) : Span := ⟨-s.nanos⟩

def least : Span := greatest.negated

def ofSeconds (n : Int) : Span := ⟨n * nanosPerSecond⟩

/-- Whole seconds, rounded toward zero. -/
def seconds (s : Span) : Int := s.nanos.tdiv nanosPerSecond

/-- What the whole seconds leave, with the sign of the span. -/
def fraction (s : Span) : Int := s.nanos.tmod nanosPerSecond

theorem seconds_fraction (s : Span) : s.seconds * nanosPerSecond + s.fraction = s.nanos :=
  Int.tdiv_mul_add_tmod s.nanos nanosPerSecond

end Span

namespace Instant

def leastYear : Int := -262143

def greatestYear : Int := 262142

def leastDay : Int := Calendar.yearStart leastYear

def greatestDay : Int := Calendar.yearStart (greatestYear + 1) - 1

def Valid (day : Int) (second nano : Nat) : Prop :=
  leastDay ≤ day ∧ day ≤ greatestDay ∧ second < secondsPerDay ∧ nano < 2 * nanosPerSecond ∧
    (nanosPerSecond ≤ nano → second % 60 = 59)

instance (day : Int) (second nano : Nat) : Decidable (Valid day second nano) :=
  inferInstanceAs (Decidable (_ ∧ _ ∧ _ ∧ _ ∧ _))

end Instant

/-- A day, a second of that day, and nanoseconds within the second. -/
structure Instant where
  day : Int
  second : Nat
  nano : Nat
  valid : Instant.Valid day second nano
deriving DecidableEq

namespace Instant

def ofParts? (day : Int) (second nano : Nat) : Option Instant :=
  if h : Valid day second nano then some ⟨day, second, nano, h⟩ else none

def least : Instant := ⟨leastDay, 0, 0, by decide⟩

def greatest : Instant := ⟨greatestDay, 86399, 999999999, by decide⟩

/-- 1970-01-01 at midnight. -/
def origin : Instant := ⟨0, 0, 0, by decide⟩

instance : Inhabited Instant := ⟨origin⟩

def isLeap (t : Instant) : Bool := nanosPerSecond ≤ t.nano

/-- A number for each point, greater for later points. -/
def place (t : Instant) : Int :=
  (t.day * secondsPerDay + t.second) * (2 * nanosPerSecond) + t.nano

def before (s t : Instant) : Bool := s.place < t.place

def atOrBefore (s t : Instant) : Bool := s.place ≤ t.place

/-- The point a number of nanoseconds after the start of a day, leap seconds not counted. -/
def ofNanos? (day nanos : Int) : Option Instant :=
  let seconds := nanos / nanosPerSecond
  ofParts? (day + seconds / secondsPerDay) (seconds % secondsPerDay).toNat
    (nanos % nanosPerSecond).toNat

/-- Adds a span. A point in a leap second stays in it if less than a second is added and the
second is not left; else the point counts as part of the second before when moving forward and as
part of the one after when moving back. -/
def plus? (t : Instant) (span : Span) : Option Instant :=
  let seconds := span.seconds
  let fraction := span.fraction
  let limit : Int := 2 * nanosPerSecond
  if t.isLeap ∧ seconds = 0 ∧ (t.nano + fraction < limit) then
    ofParts? t.day t.second (t.nano + fraction).toNat
  else
    let second : Int := if t.isLeap ∧ seconds < 0 then t.second + 1 else t.second
    let nano : Int := if t.isLeap then t.nano - nanosPerSecond else t.nano
    ofNanos? t.day ((second + seconds) * nanosPerSecond + nano + fraction)

def minus? (t : Instant) (span : Span) : Option Instant :=
  t.plus? span.negated

/-- The span from `s` to `t`. A leap second counts between points on different seconds of a day
time when the earlier of these lies in it. -/
def since (t s : Instant) : Span :=
  let leap : Int :=
    if s.second < t.second ∧ s.isLeap then 1
    else if t.second < s.second ∧ t.isLeap then -1
    else 0
  let seconds : Int := (t.day - s.day) * secondsPerDay + ((t.second : Int) - s.second) + leap
  ⟨seconds * nanosPerSecond + ((t.nano : Int) - s.nano)⟩

/-- The point a number of milliseconds after the origin. -/
def ofMillis? (millis : Int) : Option Instant :=
  ofNanos? 0 (millis * 1000000)

def date (t : Instant) : Date := Date.ofDay t.day

/-- The start of the hour that holds a point. -/
def hourStart (t : Instant) : Instant :=
  ⟨t.day, t.second - t.second % 3600, 0, by
    obtain ⟨h₁, h₂, h₃, _⟩ := t.valid
    refine ⟨h₁, h₂, ?_, ?_, ?_⟩
    · omega
    · decide
    · intro h
      exact absurd h (by decide)⟩

def hour (t : Instant) : Nat := t.second / 3600

end Instant

end Jobyard
