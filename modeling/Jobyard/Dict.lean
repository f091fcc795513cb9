/-!
Finite maps kept as lists of entries with strictly increasing keys, so that equal maps are equal
values. `Entries` holds the operations on the bare lists; a `Dict` carries the proof that its
entries are in order.
-/

namespace Jobyard

namespace Entries

variable {κ α : Type} [Ord κ]

def Sorted (entries : List (κ × α)) : Prop :=
  entries.Pairwise fun a b => compare a.1 b.1 = .lt

/-- Replaces the value of a present key and puts a new key at its place in the order. -/
def insert (key : κ) (value : α) : List (κ × α) → List (κ × α)
  | [] => [(key, value)]
  | (k, v) :: rest =>
    match compare key k with
    | .lt => (key, value) :: (k, v) :: rest
    | .eq => (key, value) :: rest
    | .gt => (k, v) :: insert key value rest

def erase (key : κ) : List (κ × α) → List (κ × α)
  | [] => []
  | (k, v) :: rest =>
    match compare key k with
    | .eq => rest
    | _ => (k, v) :: erase key rest

def find? (key : κ) : List (κ × α) → Option α
  | [] => none
  | (k, v) :: rest =>
    match compare key k with
    | .eq => some v
    | _ => find? key rest

/-- Later entries replace earlier ones of the same key. -/
def ofList (entries : List (κ × α)) : List (κ × α) :=
  entries.foldl (fun done entry => insert entry.1 entry.2 done) []

theorem mem_insert {key : κ} {value : α} {entries : List (κ × α)} {entry : κ × α}
    (h : entry ∈ insert key value entries) : entry = (key, value) ∨ entry ∈ entries := by
  induction entries with
  | nil => simpa [insert] using h
  | cons first rest ih =>
    obtain ⟨k, v⟩ := first
    unfold insert at h
    split at h
    · simpa using h
    · rcases List.mem_cons.mp h with h | h
      · exact .inl h
      · exact .inr (List.mem_cons_of_mem _ h)
    · rcases List.mem_cons.mp h with h | h
      · exact .inr (h ▸ List.mem_cons_self)
      · exact (ih h).imp id (List.mem_cons_of_mem _)

theorem mem_of_mem_erase {key : κ} {entries : List (κ × α)} {entry : κ × α}
    (h : entry ∈ erase key entries) : entry ∈ entries := by
  induction entries with
  | nil => simp [erase] at h
  | cons first rest ih =>
    obtain ⟨k, v⟩ := first
    unfold erase at h
    split at h
    · exact List.mem_cons_of_mem _ h
    · rcases List.mem_cons.mp h with h | h
      · exact h ▸ List.mem_cons_self
      · exact List.mem_cons_of_mem _ (ih h)

theorem find?_eq_none_of_lt {key : κ} {entries : List (κ × α)}
    (h : ∀ entry ∈ entries, compare key entry.1 = .lt) : find? key entries = none := by
  induction entries with
  | nil => rfl
  | cons first rest ih =>
    obtain ⟨k, v⟩ := first
    have hfirst := h (k, v) List.mem_cons_self
    simp only at hfirst
    simp [find?, hfirst, ih fun entry hentry => h entry (List.mem_cons_of_mem _ hentry)]

theorem sorted_erase {key : κ} {entries : List (κ × α)}
    (h : Sorted entries) : Sorted (erase key entries) := by
  induction entries with
  | nil => simp [erase, Sorted]
  | cons first rest ih =>
    obtain ⟨k, v⟩ := first
    obtain ⟨hfirst, hrest⟩ := List.pairwise_cons.mp h
    unfold erase
    split
    · exact hrest
    · exact List.pairwise_cons.mpr
        ⟨fun entry hentry => hfirst entry (mem_of_mem_erase hentry), ih hrest⟩

section Equal

variable [Std.LawfulEqOrd κ]

@[simp] theorem find?_insert_self (key : κ) (value : α) (entries : List (κ × α)) :
    find? key (insert key value entries) = some value := by
  induction entries with
  | nil => simp [insert, find?, Std.ReflCmp.compare_self]
  | cons first rest ih =>
    obtain ⟨k, v⟩ := first
    unfold insert
    split
    · simp [find?, Std.ReflCmp.compare_self]
    · simp [find?, Std.ReflCmp.compare_self]
    · rename_i hgt
      simp [find?, hgt, ih]

theorem find?_insert_of_ne {key other : κ} (value : α) (entries : List (κ × α))
    (hne : other ≠ key) :
    find? other (insert key value entries) = find? other entries := by
  have hcmp : compare other key ≠ .eq := fun h => hne (Std.compare_eq_iff_eq.mp h)
  induction entries with
  | nil => simp [insert, find?]
  | cons first rest ih =>
    obtain ⟨k, v⟩ := first
    unfold insert
    split
    · simp [find?]
    · rename_i heq
      have : key = k := Std.compare_eq_iff_eq.mp heq
      subst this
      simp [find?]
    · simp only [find?]
      split
      · rfl
      · exact ih

theorem find?_erase_self {key : κ} {entries : List (κ × α)} (h : Sorted entries) :
    find? key (erase key entries) = none := by
  induction entries with
  | nil => rfl
  | cons first rest ih =>
    obtain ⟨k, v⟩ := first
    obtain ⟨hfirst, hrest⟩ := List.pairwise_cons.mp h
    unfold erase
    split
    · rename_i heq
      have : key = k := Std.compare_eq_iff_eq.mp heq
      subst this
      exact find?_eq_none_of_lt hfirst
    · rename_i hne
      simp [find?, ih hrest]

theorem find?_erase_of_ne {key other : κ} (entries : List (κ × α)) (hne : other ≠ key) :
    find? other (erase key entries) = find? other entries := by
  induction entries with
  | nil => rfl
  | cons first rest ih =>
    obtain ⟨k, v⟩ := first
    unfold erase
    split
    · rename_i heq
      have : key = k := Std.compare_eq_iff_eq.mp heq
      subst this
      have hcmp : compare other key ≠ .eq := fun h => hne (Std.compare_eq_iff_eq.mp h)
      simp [find?]
    · simp only [find?]
      split
      · rfl
      · exact ih

end Equal

section Order

variable [Std.TransOrd κ] [Std.LawfulEqOrd κ]

theorem sorted_insert {key : κ} {value : α} {entries : List (κ × α)}
    (h : Sorted entries) : Sorted (insert key value entries) := by
  induction entries with
  | nil => simp [insert, Sorted]
  | cons first rest ih =>
    obtain ⟨k, v⟩ := first
    obtain ⟨hfirst, hrest⟩ := List.pairwise_cons.mp h
    unfold insert
    split
    · rename_i hlt
      refine List.pairwise_cons.mpr ⟨fun entry hentry => ?_, h⟩
      rcases List.mem_cons.mp hentry with rfl | hentry
      · exact hlt
      · exact Std.TransCmp.lt_trans hlt (hfirst entry hentry)
    · rename_i heq
      have : key = k := Std.compare_eq_iff_eq.mp heq
      exact List.pairwise_cons.mpr ⟨this ▸ hfirst, hrest⟩
    · rename_i hgt
      refine List.pairwise_cons.mpr ⟨fun entry hentry => ?_, ih hrest⟩
      rcases mem_insert hentry with rfl | hentry
      · exact Std.OrientedCmp.lt_of_gt hgt
      · exact hfirst entry hentry

theorem sorted_ofList (entries : List (κ × α)) : Sorted (ofList entries) := by
  unfold ofList
  suffices ∀ done : List (κ × α), Sorted done →
      Sorted (entries.foldl (fun done entry => insert entry.1 entry.2 done) done) from
    this [] List.Pairwise.nil
  induction entries with
  | nil => exact fun done h => h
  | cons entry rest ih => exact fun done h => ih _ (sorted_insert h)

theorem eq_of_find?_eq {left right : List (κ × α)} (hleft : Sorted left) (hright : Sorted right)
    (h : ∀ key, find? key left = find? key right) : left = right := by
  induction left generalizing right with
  | nil =>
    cases right with
    | nil => rfl
    | cons first rest =>
      have := h first.1
      simp [find?, Std.ReflCmp.compare_self] at this
  | cons first rest ih =>
    obtain ⟨k, v⟩ := first
    obtain ⟨hfirst, hrest⟩ := List.pairwise_cons.mp hleft
    cases right with
    | nil =>
      have := h k
      simp [find?, Std.ReflCmp.compare_self] at this
    | cons other more =>
      obtain ⟨k', v'⟩ := other
      obtain ⟨hother, hmore⟩ := List.pairwise_cons.mp hright
      have hkey : k = k' := by
        cases hcmp : compare k k' with
        | eq => exact Std.compare_eq_iff_eq.mp hcmp
        | lt =>
          have habsent : find? k ((k', v') :: more) = none :=
            find?_eq_none_of_lt fun entry hentry => by
              rcases List.mem_cons.mp hentry with rfl | hentry
              · exact hcmp
              · exact Std.TransCmp.lt_trans hcmp (hother entry hentry)
          have := h k
          rw [habsent] at this
          simp [find?, Std.ReflCmp.compare_self] at this
        | gt =>
          have hlt : compare k' k = .lt := Std.OrientedCmp.lt_of_gt hcmp
          have habsent : find? k' ((k, v) :: rest) = none :=
            find?_eq_none_of_lt fun entry hentry => by
              rcases List.mem_cons.mp hentry with rfl | hentry
              · exact hlt
              · exact Std.TransCmp.lt_trans hlt (hfirst entry hentry)
          have := h k'
          rw [habsent] at this
          simp [find?, Std.ReflCmp.compare_self] at this
      subst hkey
      have hvalue : v = v' := by
        have := h k
        simpa [find?, Std.ReflCmp.compare_self] using this
      subst hvalue
      congr 1
      refine ih hrest hmore fun key => ?_
      by_cases heq : compare key k = .eq
      · have : key = k := Std.compare_eq_iff_eq.mp heq
        subst this
        rw [find?_eq_none_of_lt hfirst, find?_eq_none_of_lt hother]
      · have := h key
        simpa [find?, heq] using this

end Order

end Entries

/-- A finite map from keys to values. -/
structure Dict (κ α : Type) [Ord κ] where
  entries : List (κ × α)
  sorted : Entries.Sorted entries

namespace Dict

variable {κ α : Type} [Ord κ]

@[ext] theorem ext {a b : Dict κ α} (h : a.entries = b.entries) : a = b := by
  cases a
  cases b
  congr

instance [DecidableEq κ] [DecidableEq α] : DecidableEq (Dict κ α) := fun a b =>
  decidable_of_iff (a.entries = b.entries) ⟨Dict.ext, fun h => h ▸ rfl⟩

def empty : Dict κ α := ⟨[], List.Pairwise.nil⟩

instance : EmptyCollection (Dict κ α) := ⟨empty⟩

instance : Inhabited (Dict κ α) := ⟨∅⟩

def find? (d : Dict κ α) (key : κ) : Option α := Entries.find? key d.entries

def contains (d : Dict κ α) (key : κ) : Bool := (d.find? key).isSome

def keys (d : Dict κ α) : List κ := d.entries.map (·.1)

def values (d : Dict κ α) : List α := d.entries.map (·.2)

def size (d : Dict κ α) : Nat := d.entries.length

def isEmpty (d : Dict κ α) : Bool := d.entries.isEmpty

@[simp] theorem find?_empty (key : κ) : (∅ : Dict κ α).find? key = none := rfl

section Equal

variable [Std.LawfulEqOrd κ]

def erase (d : Dict κ α) (key : κ) : Dict κ α :=
  ⟨Entries.erase key d.entries, Entries.sorted_erase d.sorted⟩

@[simp] theorem find?_erase_self (d : Dict κ α) (key : κ) : (d.erase key).find? key = none :=
  Entries.find?_erase_self d.sorted

theorem find?_erase_of_ne (d : Dict κ α) {key other : κ} (hne : other ≠ key) :
    (d.erase key).find? other = d.find? other :=
  Entries.find?_erase_of_ne d.entries hne

end Equal

section Order

variable [Std.TransOrd κ] [Std.LawfulEqOrd κ]

def insert (d : Dict κ α) (key : κ) (value : α) : Dict κ α :=
  ⟨Entries.insert key value d.entries, Entries.sorted_insert d.sorted⟩

def ofList (entries : List (κ × α)) : Dict κ α :=
  ⟨Entries.ofList entries, Entries.sorted_ofList entries⟩

/-- Adds entries in order; each replaces an earlier one of its key. -/
def insertMany (d : Dict κ α) (entries : List (κ × α)) : Dict κ α :=
  entries.foldl (fun done entry => done.insert entry.1 entry.2) d

@[simp] theorem find?_insert_self (d : Dict κ α) (key : κ) (value : α) :
    (d.insert key value).find? key = some value :=
  Entries.find?_insert_self key value d.entries

theorem find?_insert_of_ne (d : Dict κ α) {key other : κ} (value : α) (hne : other ≠ key) :
    (d.insert key value).find? other = d.find? other :=
  Entries.find?_insert_of_ne value d.entries hne

/-- A map is determined by its look-ups. -/
theorem ext_find? {a b : Dict κ α} (h : ∀ key, a.find? key = b.find? key) : a = b :=
  Dict.ext (Entries.eq_of_find?_eq a.sorted b.sorted h)

end Order

end Dict

end Jobyard
