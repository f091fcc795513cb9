/-!
The Gregorian calendar, extended to all years. Days are counted from 1970-01-01; year 0 comes
before year 1.
-/

namespace Jobyard

structure Date where
  year : Int
  month : Nat
  day : Nat
deriving DecidableEq, Repr

namespace Calendar

def isLeap (year : Int) : Bool :=
  year % 4 = 0 && (year % 100 ≠ 0 || year % 400 = 0)

/-- The number of the first day of a year. -/
def yearStart (year : Int) : Int :=
  let past := year - 1
  365 * past + past / 4 - past / 100 + past / 400 - 719162

/-- The days of a year before its months 1 to 12; months beyond start after the year. -/
def monthStart (leap : Bool) (month : Nat) : Nat :=
  let extra := if leap then 1 else 0
  match month with
  | 0 => 0
  | 1 => 0
  | 2 => 31
  | 3 => 59 + extra
  | 4 => 90 + extra
  | 5 => 120 + extra
  | 6 => 151 + extra
  | 7 => 181 + extra
  | 8 => 212 + extra
  | 9 => 243 + extra
  | 10 => 273 + extra
  | 11 => 304 + extra
  | 12 => 334 + extra
  | _ => 365 + extra

def monthLength (leap : Bool) (month : Nat) : Nat :=
  monthStart leap (month + 1) - monthStart leap month

/-- The year of a day: the mean length of years leads to it or to a neighbour. -/
def yearOf (day : Int) : Int :=
  let guess := (day + 719162) * 400 / 146097 + 1
  if day < yearStart guess then guess - 1
  else if yearStart (guess + 1) ≤ day then guess + 1
  else guess

/-- The month that holds a day of the year, counted from 0. -/
def monthOf (leap : Bool) (dayOfYear : Nat) : Nat :=
  ((List.range' 1 12).filter fun month => monthStart leap month ≤ dayOfYear).length

end Calendar

namespace Date

open Calendar

def ofDay (day : Int) : Date :=
  let year := yearOf day
  let leap := isLeap year
  let dayOfYear := (day - yearStart year).toNat
  let month := monthOf leap dayOfYear
  ⟨year, month, dayOfYear - monthStart leap month + 1⟩

def Valid (d : Date) : Prop :=
  1 ≤ d.month ∧ d.month ≤ 12 ∧ 1 ≤ d.day ∧ d.day ≤ monthLength (isLeap d.year) d.month

instance (d : Date) : Decidable d.Valid :=
  inferInstanceAs (Decidable (_ ∧ _ ∧ _ ∧ _))

def toDay (d : Date) : Int :=
  yearStart d.year + monthStart (isLeap d.year) d.month + d.day - 1

def toDay? (d : Date) : Option Int :=
  if d.Valid then some d.toDay else none

end Date

end Jobyard
