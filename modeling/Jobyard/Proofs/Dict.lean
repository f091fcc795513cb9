import Jobyard.Dict

/-!
What stands in a finite map: the entries are exactly the successful look-ups.
-/

namespace Jobyard

namespace Entries

variable {κ α : Type} [Ord κ]

theorem mem_of_find?_eq_some [Std.LawfulEqOrd κ] {entries : List (κ × α)} {key : κ} {value : α}
    (h : find? key entries = some value) : (key, value) ∈ entries := by
  induction entries with
  | nil => cases h
  | cons first rest ih =>
      obtain ⟨k, v⟩ := first
      simp only [find?] at h
      split at h
      · rename_i heq
        have hkey : key = k := Std.compare_eq_iff_eq.mp heq
        cases h
        exact hkey ▸ List.mem_cons_self
      · exact List.mem_cons_of_mem _ (ih h)

theorem find?_eq_some_of_mem [Std.LawfulEqOrd κ] [Std.OrientedOrd κ]
    {entries : List (κ × α)} (hsorted : Sorted entries) {key : κ} {value : α}
    (h : (key, value) ∈ entries) : find? key entries = some value := by
  induction entries with
  | nil => cases h
  | cons first rest ih =>
      obtain ⟨k, v⟩ := first
      obtain ⟨hfirst, hrest⟩ := List.pairwise_cons.mp hsorted
      rcases List.mem_cons.mp h with heq | hmem
      · cases heq
        simp [find?, Std.ReflCmp.compare_self]
      · have hlt : compare k key = .lt := hfirst (key, value) hmem
        have hgt : compare key k = .gt := Std.OrientedCmp.gt_of_lt hlt
        simp only [find?, hgt]
        exact ih hrest hmem

theorem find?_insert [Std.LawfulEqOrd κ] [DecidableEq κ] (key other : κ) (value : α)
    (entries : List (κ × α)) :
    find? other (insert key value entries) =
      if other = key then some value else find? other entries := by
  split
  · rename_i h
    subst h
    exact find?_insert_self other value entries
  · rename_i h
    exact find?_insert_of_ne value entries h

theorem find?_foldl_insert [Std.LawfulEqOrd κ] [DecidableEq κ] (key : κ)
    (entries done : List (κ × α)) :
    find? key (entries.foldl (fun done entry => insert entry.1 entry.2 done) done) =
      (entries.reverse.lookup key).or (find? key done) := by
  induction entries generalizing done with
  | nil => rfl
  | cons first rest ih =>
      rw [List.foldl_cons, ih, find?_insert, List.reverse_cons, List.lookup_append, Option.or_assoc]
      congr 1
      obtain ⟨other, value⟩ := first
      by_cases h : key = other
      · simp [h]
      · simp [h, List.lookup_cons, beq_false_of_ne h]

theorem find?_ofList [Std.LawfulEqOrd κ] [DecidableEq κ] (key : κ) (entries : List (κ × α)) :
    find? key (ofList entries) = entries.reverse.lookup key := by
  unfold ofList
  rw [find?_foldl_insert]
  exact Option.or_none

end Entries

namespace Dict

variable {κ α : Type} [Ord κ] [Std.LawfulEqOrd κ]

theorem mem_values_iff [Std.OrientedOrd κ] {d : Dict κ α} {value : α} :
    value ∈ d.values ↔ ∃ key, d.find? key = some value := by
  constructor
  · intro h
    obtain ⟨⟨key, other⟩, hmem, rfl⟩ := List.mem_map.mp h
    exact ⟨key, Entries.find?_eq_some_of_mem d.sorted hmem⟩
  · rintro ⟨key, h⟩
    exact List.mem_map.mpr ⟨(key, value), Entries.mem_of_find?_eq_some h, rfl⟩

theorem find?_foldl_erase [DecidableEq κ] (keys : List κ) (d : Dict κ α) (key : κ) :
    (keys.foldl erase d).find? key = if key ∈ keys then none else d.find? key := by
  induction keys generalizing d with
  | nil => simp
  | cons first rest ih =>
      rw [List.foldl_cons, ih]
      by_cases hrest : key ∈ rest
      · simp [hrest]
      · by_cases hfirst : key = first
        · subst hfirst
          simp [hrest]
        · simp [hrest, hfirst, find?_erase_of_ne d hfirst]

end Dict

end Jobyard
