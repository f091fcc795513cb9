import Jobyard.Document.Collection
import Jobyard.Proofs.Store.Write

/-!
Bodies of counters. What a store adds to a counter is what a reader finds added to it, as long as
the sum is a number that readers accept.
-/

namespace Jobyard

theorem Json.int64?_eq_some {value : Json} {n : Int} :
    value.int64? = some n ↔ value = .int n ∧ least64 ≤ n ∧ n ≤ greatest64 := by
  unfold int64? intWithin?
  constructor
  · intro h
    split at h
    · split at h
      · rename_i hbounds
        cases h
        exact ⟨rfl, hbounds⟩
      · cases h
    · cases h
  · rintro ⟨rfl, hbounds⟩
    exact if_pos hbounds

namespace Counter

theorem decode?_obj (members : List (String × Json)) :
    (Document.decode? (.obj members) : Option Counter) =
      ((Entries.find? field members).bind Json.int64?).map Counter.mk := by
  have hfound : Record.find? ⟨[(field, Entries.find? field members)]⟩ field =
      Entries.find? field members := by
    unfold Record.find?
    rw [List.lookup_cons_self]
    rfl
  change ((Record.find? ⟨[(field, Entries.find? field members)]⟩ field).bind Json.int64?).bind
    (fun n => some (Counter.mk n)) = _
  rw [hfound, Option.map_eq_bind]
  rfl

theorem decode?_encode (c : Counter) :
    (Document.decode? (Document.encode c) : Option Counter) =
      (Json.int64? (.int c.value)).map Counter.mk :=
  decode?_obj [(field, .int c.value)]

theorem eq_of_decode?_encode {c found : Counter}
    (h : Document.decode? (Document.encode c) = some found) : found = c := by
  rw [decode?_encode] at h
  obtain ⟨n, hn, rfl⟩ := Option.map_eq_some_iff.mp h
  cases (Json.int64?_eq_some.mp hn).1
  rfl

end Counter

namespace Memory

theorem addTo_eq_ok {body sum : Json} {field : String} {delta : Int}
    (h : addTo body field delta = .ok sum) :
    ∃ members n, body = .obj members ∧
      sum = .obj (Entries.insert field (.int (n + delta)) members) ∧
      (n = 0 ∧ (Entries.find? field members = none ∨ Entries.find? field members = some .null) ∨
        (Entries.find? field members).bind Json.int64? = some n) := by
  unfold addTo at h
  split at h
  · rename_i members
    split at h
    · rename_i hmissing
      cases h
      exact ⟨members, 0, rfl, by rw [Int.zero_add], .inl ⟨rfl, .inl hmissing⟩⟩
    · rename_i hnull
      cases h
      exact ⟨members, 0, rfl, by rw [Int.zero_add], .inl ⟨rfl, .inr hnull⟩⟩
    · rename_i value hvalue
      split at h
      · rename_i n hn
        cases h
        exact ⟨members, n, rfl, rfl, .inr (by rw [hvalue]; exact hn)⟩
      · cases h
  · cases h

theorem addTo_of_find? {members : List (String × Json)} {field : String} {n : Int}
    (h : (Entries.find? field members).bind Json.int64? = some n) (delta : Int) :
    addTo (.obj members) field delta =
      .ok (.obj (Entries.insert field (.int (n + delta)) members)) := by
  obtain ⟨value, hvalue, hn⟩ := Option.bind_eq_some_iff.mp h
  obtain ⟨rfl, _⟩ := Json.int64?_eq_some.mp hn
  simp [addTo, hvalue, hn]

theorem addTo_encode {c found : Counter} (h : Document.decode? (Document.encode c) = some found)
    (delta : Int) :
    addTo (Document.encode c) Counter.field delta =
      .ok (Document.encode (Counter.mk (c.value + delta))) := by
  rw [Counter.decode?_encode] at h
  obtain ⟨n, hn, _⟩ := Option.map_eq_some_iff.mp h
  obtain ⟨heq, _⟩ := Json.int64?_eq_some.mp hn
  cases heq
  have hfound : (Entries.find? Counter.field [(Counter.field, .int c.value)]).bind Json.int64? =
      some c.value := hn
  exact addTo_of_find? hfound delta

theorem eq_of_addTo_encode {body : Json} {total delta : Int}
    (h : addTo (Document.encode (Counter.mk total)) Counter.field delta = .ok body) :
    body = Document.encode (Counter.mk (total + delta)) := by
  obtain ⟨members, n, hmembers, rfl, hn⟩ := addTo_eq_ok h
  obtain rfl : [(Counter.field, .int total)] = members := Json.obj.inj hmembers
  have hfound : Entries.find? Counter.field [(Counter.field, Json.int total)] =
      some (.int total) := rfl
  rw [hfound] at hn
  rcases hn with ⟨_, hnone | hnull⟩ | hread
  · cases hnone
  · cases hnull
  · cases (Json.int64?_eq_some.mp hread).1
    rfl

theorem decode?_of_addTo {body sum next : Json} {delta more : Int}
    (hsum : addTo body Counter.field delta = .ok sum)
    (hnext : addTo sum Counter.field more = .ok next) :
    (Document.decode? sum : Option Counter).isSome := by
  obtain ⟨members, n, _, rfl, _⟩ := addTo_eq_ok hsum
  obtain ⟨others, total, hobj, _, hfound⟩ := addTo_eq_ok hnext
  cases hobj
  rw [Entries.find?_insert_self] at hfound
  rw [Counter.decode?_obj, Entries.find?_insert_self]
  rcases hfound with ⟨_, hnone | hnull⟩ | hread
  · cases hnone
  · cases hnull
  · rw [hread]
    rfl

end Memory

end Jobyard
