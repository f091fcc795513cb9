import Jobyard.Time.Calendar

/-!
Every day has a date, and the date leads back to the day.
-/

namespace Jobyard

namespace Calendar

theorem yearStart_succ (year : Int) :
    yearStart (year + 1) = yearStart year + 365 + if isLeap year then 1 else 0 := by
  have hleap : isLeap year = true ↔ year % 4 = 0 ∧ (year % 100 ≠ 0 ∨ year % 400 = 0) := by
    simp [isLeap]
  simp only [yearStart, hleap]
  split <;> omega

theorem yearStart_yearOf (day : Int) :
    yearStart (yearOf day) ≤ day ∧ day < yearStart (yearOf day + 1) := by
  unfold yearOf
  simp only
  split
  · rename_i hearly
    simp only [yearStart] at *
    omega
  · split
    · rename_i _ hlate
      simp only [yearStart] at *
      omega
    · omega

theorem monthOf_spec (leap : Bool) (dayOfYear : Nat) (h : dayOfYear < monthStart leap 13) :
    1 ≤ monthOf leap dayOfYear ∧ monthOf leap dayOfYear ≤ 12 ∧
      monthStart leap (monthOf leap dayOfYear) ≤ dayOfYear ∧
      dayOfYear < monthStart leap (monthOf leap dayOfYear + 1) := by
  have hall : ∀ leap : Bool, ∀ n < 366, n < monthStart leap 13 →
      1 ≤ monthOf leap n ∧ monthOf leap n ≤ 12 ∧ monthStart leap (monthOf leap n) ≤ n ∧
        n < monthStart leap (monthOf leap n + 1) := by
    decide +kernel
  refine hall leap dayOfYear ?_ h
  cases leap <;> simp [monthStart] at h <;> omega

end Calendar

namespace Date

open Calendar

theorem ofDay_spec (day : Int) : (ofDay day).Valid ∧ (ofDay day).toDay = day := by
  obtain ⟨hstart, hend⟩ := yearStart_yearOf day
  rw [yearStart_succ] at hend
  have hlength : (day - yearStart (yearOf day)).toNat < monthStart (isLeap (yearOf day)) 13 := by
    change _ < 365 + if isLeap (yearOf day) then 1 else 0
    by_cases hleap : isLeap (yearOf day)
    · rw [if_pos hleap] at hend ⊢
      omega
    · rw [if_neg hleap] at hend ⊢
      omega
  obtain ⟨hleast, hmost, hmonth, hnext⟩ := monthOf_spec _ _ hlength
  constructor
  · refine ⟨hleast, hmost, Nat.le_add_left 1 _, ?_⟩
    simp only [ofDay, monthLength]
    omega
  · simp only [ofDay, toDay]
    omega

theorem toDay?_ofDay (day : Int) : (ofDay day).toDay? = some day := by
  obtain ⟨hvalid, hday⟩ := ofDay_spec day
  rw [toDay?, if_pos hvalid, hday]

theorem Valid.day_le {d : Date} (h : d.Valid) : d.day ≤ 31 := by
  obtain ⟨hleast, hmost, _, hday⟩ := h
  have hlength : ∀ leap : Bool, ∀ month < 13, 1 ≤ month → monthLength leap month ≤ 31 := by decide
  exact Nat.le_trans hday (hlength _ _ (Nat.lt_succ_of_le hmost) hleast)

end Date

end Jobyard
