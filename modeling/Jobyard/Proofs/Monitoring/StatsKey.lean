import Jobyard.Monitoring.StatsKey
import Jobyard.Proofs.Time.Text

/-!
What the keys of counts tell apart: kinds, days and hours. The last colon of a key ends its kind,
and every number after the year has two digits.
-/

namespace Jobyard

theorem eq_of_append_cons_eq {c : Char} {a b s t : List Char} (hs : c ∉ s) (ht : c ∉ t)
    (h : a ++ c :: s = b ++ c :: t) : a = b ∧ s = t := by
  rcases List.append_eq_append_iff.mp h with ⟨more, hb, hmore⟩ | ⟨more, ha, hmore⟩
  · cases more with
    | nil =>
        cases hmore
        exact ⟨(List.append_nil a ▸ hb).symm, rfl⟩
    | cons first rest =>
        cases hmore
        exact absurd (by simp) hs
  · cases more with
    | nil =>
        cases hmore
        exact ⟨List.append_nil b ▸ ha, rfl⟩
    | cons first rest =>
        cases hmore
        exact absurd (by simp) ht

namespace TimeText

open Text

theorem toList_date (d : Date) :
    (date d).toList = (year d.year).toList ++
      '-' :: ((padded 2 d.month).toList ++ '-' :: (padded 2 d.day).toList) := by
  simp [date]

theorem padded_injective {width m n : Nat} (h : (padded width m).toList = (padded width n).toList) :
    m = n := by
  have hread := digits?_padded width m
  rw [h, digits?_padded] at hread
  exact (Option.some.inj hread).symm

theorem isDigit_of_mem_year {n : Int} {c : Char} (h : c ∈ (year n).toList) :
    c = '-' ∨ c = '+' ∨ c.isDigit := by
  unfold year at h
  split at h
  · exact .inr (.inr (isDigit_of_mem_padded h))
  · rw [String.toList_append, List.mem_append] at h
    rcases h with hsign | hdigit
    · split at hsign
      · exact .inl (List.mem_singleton.mp hsign)
      · exact .inr (.inl (List.mem_singleton.mp hsign))
    · exact .inr (.inr (isDigit_of_mem_padded hdigit))

theorem colon_not_mem_padded (width n : Nat) : ':' ∉ (padded width n).toList := by
  intro h
  cases isDigit_of_mem_padded h

theorem colon_not_mem_date (d : Date) : ':' ∉ (date d).toList := by
  have hyear : ':' ∉ (year d.year).toList := by
    intro h
    rcases isDigit_of_mem_year h with hdash | hplus | hdigit
    · cases hdash
    · cases hplus
    · cases hdigit
  rw [toList_date]
  simp [hyear, colon_not_mem_padded]

variable {d e : Date}

def Short (d : Date) : Prop := d.month < 100 ∧ d.day < 100

theorem short_ofDay (day : Int) : Short (Date.ofDay day) := by
  obtain ⟨hvalid, _⟩ := Date.ofDay_spec day
  exact ⟨Nat.lt_of_le_of_lt hvalid.2.1 (by decide), Nat.lt_of_le_of_lt hvalid.day_le (by decide)⟩

theorem length_padded_two {n : Nat} (h : n < 100) : (padded 2 n).toList.length = 2 :=
  length_padded 2 n (by decide) h

theorem date_injective (hd : Short d) (he : Short e) (h : (date d).toList = (date e).toList) :
    d = e := by
  rw [toList_date, toList_date] at h
  obtain ⟨hyear, hrest⟩ := List.append_inj' h (by
    simp [length_padded_two hd.1, length_padded_two hd.2, length_padded_two he.1,
      length_padded_two he.2])
  obtain ⟨hmonth, hday⟩ := List.append_inj (List.tail_eq_of_cons_eq hrest)
    (by rw [length_padded_two hd.1, length_padded_two he.1])
  have hread := lenientYear_year d.year []
  rw [hyear, lenientYear_year] at hread
  obtain ⟨dy, dm, dd⟩ := d
  obtain ⟨ey, em, ed⟩ := e
  cases hread
  cases padded_injective hmonth
  cases padded_injective (List.tail_eq_of_cons_eq hday)
  rfl

theorem date_ne_append (hd : Short d) (he : Short e) {hour : Nat} (hhour : hour < 100) :
    (date d).toList ≠ (date e).toList ++ '-' :: (padded 2 hour).toList := by
  intro h
  have hregroup : (date e).toList ++ '-' :: (padded 2 hour).toList =
      ((year e.year).toList ++ '-' :: (padded 2 e.month).toList) ++
        '-' :: ((padded 2 e.day).toList ++ '-' :: (padded 2 hour).toList) := by
    rw [toList_date]
    simp
  rw [hregroup, toList_date] at h
  obtain ⟨hyear, _⟩ := List.append_inj' h (by
    simp [length_padded_two hd.1, length_padded_two hd.2, length_padded_two he.2,
      length_padded_two hhour])
  -- Before the month there would be a year that goes on after its digits.
  have hread := lenientYear_year d.year []
  rw [hyear, List.append_assoc, List.cons_append, lenientYear_year] at hread
  have hrest := List.tail_eq_of_cons_eq (congrArg Prod.snd (Option.some.inj hread))
  simp at hrest

end TimeText

namespace StatsKey

open TimeText Text

theorem toList_daily (kind : String) (day : Date) :
    (daily kind day).toList = ("stats:" ++ kind).toList ++ ':' :: (date day).toList := by
  simp [daily]

theorem toList_hourly (kind : String) (t : Instant) :
    (hourly kind t).toList = ("stats:" ++ kind).toList ++
      ':' :: ((date t.date).toList ++ '-' :: (padded 2 t.hour).toList) := by
  simp [hourly]

theorem colon_not_mem_hour (d : Date) (hour : Nat) :
    ':' ∉ (date d).toList ++ '-' :: (padded 2 hour).toList := by
  simp [colon_not_mem_date, colon_not_mem_padded]

theorem kind_eq_of_append {a b : String}
    (h : ("stats:" ++ a).toList = ("stats:" ++ b).toList) : a = b := by
  apply String.toList_inj.mp
  simpa using h

variable {a b : String}

theorem daily_eq_iff (m n : Int) :
    daily a (Date.ofDay m) = daily b (Date.ofDay n) ↔ a = b ∧ m = n := by
  constructor
  · intro h
    have htext := congrArg String.toList h
    rw [toList_daily, toList_daily] at htext
    obtain ⟨hkind, hdate⟩ :=
      eq_of_append_cons_eq (colon_not_mem_date _) (colon_not_mem_date _) htext
    refine ⟨kind_eq_of_append hkind, ?_⟩
    have hday := congrArg Date.toDay? (date_injective (short_ofDay m) (short_ofDay n) hdate)
    rw [Date.toDay?_ofDay, Date.toDay?_ofDay] at hday
    exact Option.some.inj hday
  · rintro ⟨rfl, rfl⟩
    rfl

theorem hourly_eq_iff (s t : Instant) :
    hourly a s = hourly b t ↔ a = b ∧ s.day = t.day ∧ s.hour = t.hour := by
  constructor
  · intro h
    have htext := congrArg String.toList h
    rw [toList_hourly, toList_hourly] at htext
    obtain ⟨hkind, hrest⟩ :=
      eq_of_append_cons_eq (colon_not_mem_hour _ _) (colon_not_mem_hour _ _) htext
    obtain ⟨hdate, hhour⟩ := List.append_inj' hrest (by
      simp [length_padded_two s.fields_bounds.2.2.1, length_padded_two t.fields_bounds.2.2.1])
    refine ⟨kind_eq_of_append hkind, ?_, padded_injective (List.tail_eq_of_cons_eq hhour)⟩
    have hday := congrArg Date.toDay?
      (date_injective (short_ofDay s.day) (short_ofDay t.day) hdate)
    rw [Date.toDay?_ofDay, Date.toDay?_ofDay] at hday
    exact Option.some.inj hday
  · rintro ⟨rfl, hday, hhour⟩
    simp only [hourly, Instant.date, hday, hhour]

theorem daily_ne_hourly (day : Int) (t : Instant) : daily a (Date.ofDay day) ≠ hourly b t := by
  intro h
  have htext := congrArg String.toList h
  rw [toList_daily, toList_hourly] at htext
  obtain ⟨_, hdate⟩ :=
    eq_of_append_cons_eq (colon_not_mem_date _) (colon_not_mem_hour _ _) htext
  exact date_ne_append (short_ofDay day) (short_ofDay t.day) t.fields_bounds.2.2.1 hdate

end StatsKey

end Jobyard
