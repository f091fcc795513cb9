import Jobyard.Json.Basic

/-!
Functions of JSON values that are given by what they make of the parts of a value, and the
induction that goes with them.
-/

namespace Jobyard.Json

theorem induct {motive : Json → Prop} (null : motive .null) (bool : ∀ value, motive (.bool value))
    (int : ∀ value, motive (.int value)) (double : ∀ value, motive (.double value))
    (str : ∀ text, motive (.str text))
    (arr : ∀ items, (∀ item ∈ items, motive item) → motive (.arr items))
    (obj : ∀ members, (∀ member ∈ members, motive member.2) → motive (.obj members)) (v : Json) :
    motive v := by
  refine @Json.rec motive (fun items => ∀ item ∈ items, motive item)
    (fun members => ∀ member ∈ members, motive member.2) (fun member => motive member.2)
    null bool int double str arr obj ?_ ?_ ?_ ?_ ?_ v
  · intro item hitem
    cases hitem
  · intro first rest hfirst hrest
    exact List.forall_mem_cons.mpr ⟨hfirst, hrest⟩
  · intro member hmember
    cases hmember
  · intro first rest hfirst hrest
    exact List.forall_mem_cons.mpr ⟨hfirst, hrest⟩
  · intro name value hvalue
    exact hvalue

/-- What is made of a value without parts, and of the others with the results for their parts. -/
structure Traversal (α : Type) where
  leaf : Json → α
  items : List Json → List α → α
  members : List (String × Json) → List (String × α) → α

namespace Traversal

variable {α : Type} (t : Traversal α)

mutual

def run : Json → α
  | .arr items => t.items items (runItems items)
  | .obj members => t.members members (runMembers members)
  | value => t.leaf value
termination_by structural value => value

def runItems : List Json → List α
  | [] => []
  | item :: rest => run item :: runItems rest
termination_by structural items => items

def runMembers : List (String × Json) → List (String × α)
  | [] => []
  | member :: rest => runMember member :: runMembers rest
termination_by structural members => members

def runMember : String × Json → String × α
  | (name, value) => (name, run value)
termination_by structural member => member

end

theorem runItems_eq (items : List Json) : t.runItems items = items.map t.run := by
  induction items with
  | nil => rfl
  | cons item rest ih => exact congrArg (t.run item :: ·) ih

theorem runMembers_eq (members : List (String × Json)) :
    t.runMembers members = members.map fun member => (member.1, t.run member.2) := by
  induction members with
  | nil => rfl
  | cons member rest ih =>
      obtain ⟨name, value⟩ := member
      exact congrArg ((name, t.run value) :: ·) ih

theorem run_arr (items : List Json) : t.run (.arr items) = t.items items (items.map t.run) :=
  congrArg (t.items items) (t.runItems_eq items)

theorem run_obj (members : List (String × Json)) :
    t.run (.obj members) =
      t.members members (members.map fun member => (member.1, t.run member.2)) :=
  congrArg (t.members members) (t.runMembers_eq members)

end Traversal

def all (p : Json → Bool) : Json → Bool :=
  Traversal.run {
    leaf := p
    items := fun items results => p (.arr items) && results.all id
    members := fun members results => p (.obj members) && results.all (·.2) }

/-- How many arrays and objects are open at most. -/
def depth : Json → Nat :=
  Traversal.run {
    leaf := fun _ => 0
    items := fun _ depths => depths.foldr max 0 + 1
    members := fun _ depths => depths.foldr (fun member => max member.2) 0 + 1 }

section All

variable {p : Json → Bool}

theorem all_arr {items : List Json} :
    (arr items).all p = true ↔ p (.arr items) = true ∧ ∀ item ∈ items, item.all p = true := by
  unfold all
  rw [Traversal.run_arr]
  simp

theorem all_obj {members : List (String × Json)} : (obj members).all p = true ↔
    p (.obj members) = true ∧ ∀ member ∈ members, member.2.all p = true := by
  unfold all
  rw [Traversal.run_obj]
  simp

theorem of_all {v : Json} (h : v.all p = true) : p v = true := by
  cases v with
  | arr items => exact (all_arr.mp h).1
  | obj members => exact (all_obj.mp h).1
  | _ => exact h

end All

theorem foldr_max_le {α : Type} (size : α → Nat) (xs : List α) {n : Nat} :
    xs.foldr (fun x => max (size x)) 0 ≤ n ↔ ∀ x ∈ xs, size x ≤ n := by
  induction xs with
  | nil => simp
  | cons x rest ih => rw [List.foldr_cons, Nat.max_le, ih, List.forall_mem_cons]

theorem depth_arr (items : List Json) :
    (arr items).depth = items.foldr (fun item => max item.depth) 0 + 1 :=
  (Traversal.run_arr _ items).trans (congrArg (· + 1) List.foldr_map)

theorem depth_obj (members : List (String × Json)) :
    (obj members).depth = members.foldr (fun member => max member.2.depth) 0 + 1 :=
  (Traversal.run_obj _ members).trans (congrArg (· + 1) List.foldr_map)

theorem depth_arr_le {items : List Json} {outer limit : Nat}
    (h : (arr items).depth + outer ≤ limit) :
    outer < limit ∧ ∀ item ∈ items, item.depth + (outer + 1) ≤ limit := by
  rw [depth_arr] at h
  have hitems := (foldr_max_le depth items).mp (Nat.le_refl _)
  refine ⟨by omega, fun item hitem => ?_⟩
  have hle := hitems item hitem
  omega

theorem depth_obj_le {members : List (String × Json)} {outer limit : Nat}
    (h : (obj members).depth + outer ≤ limit) :
    outer < limit ∧ ∀ member ∈ members, member.2.depth + (outer + 1) ≤ limit := by
  rw [depth_obj] at h
  have hmembers :=
    (foldr_max_le (fun member => member.2.depth) members).mp (Nat.le_refl _)
  refine ⟨by omega, fun member hmember => ?_⟩
  have hle := hmembers member hmember
  omega

end Jobyard.Json
