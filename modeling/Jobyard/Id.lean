import Jobyard.Text.Whole

/-!
Identifiers of jobs and documents. A document is addressed by its collection and a key, written
with a slash between them; further slashes belong to the key.
-/

namespace Jobyard

structure JobId where
  text : String
deriving DecidableEq, Inhabited

structure DocId where
  collection : String
  key : String
deriving DecidableEq, Inhabited

/-- Why a text is no identifier. -/
inductive IdError
  | document (text : String)
  | emptyJob
deriving DecidableEq

def IdError.message : IdError → String
  | .document text => "invalid identifier: DocumentId: '" ++ text ++ "'"
  | .emptyJob => "invalid identifier: JobId: empty"

def JobId.parse (text : String) : Except IdError JobId :=
  if text = "" then .error .emptyJob else .ok ⟨text⟩

namespace DocId

instance : Ord DocId :=
  ⟨fun a b => (compare a.collection b.collection).then (compare a.key b.key)⟩

theorem compare_eq (a b : DocId) :
    compare a b = (compare a.collection b.collection).then (compare a.key b.key) := rfl

instance : Std.OrientedOrd DocId where
  eq_swap {a b} := by
    have collections : compare a.collection b.collection =
        (compare b.collection a.collection).swap := Std.OrientedCmp.eq_swap
    have keys : compare a.key b.key = (compare b.key a.key).swap := Std.OrientedCmp.eq_swap
    simp only [compare_eq, Ordering.swap_then, collections, keys]

instance : Std.TransOrd DocId where
  isLE_trans {a b c} hab hbc := by
    simp only [compare_eq, Ordering.isLE_then_iff_or] at *
    rcases hab with hab | ⟨hab, hab'⟩ <;> rcases hbc with hbc | ⟨hbc, hbc'⟩
    · exact .inl (Std.TransCmp.lt_trans hab hbc)
    · exact .inl (Std.TransCmp.lt_of_lt_of_eq hab hbc)
    · exact .inl (Std.TransCmp.lt_of_eq_of_lt hab hbc)
    · exact .inr ⟨Std.TransCmp.eq_trans hab hbc, Std.TransCmp.isLE_trans hab' hbc'⟩

instance : Std.LawfulEqOrd DocId where
  compare_self {a} := by simp [Std.ReflCmp.compare_self]
  eq_of_compare {a b} h := by
    simp only [compare_eq, Ordering.then_eq_eq] at h
    cases a
    cases b
    simp only at h
    rw [Std.compare_eq_iff_eq.mp h.1, Std.compare_eq_iff_eq.mp h.2]

def text (id : DocId) : String := id.collection ++ "/" ++ id.key

/-- The identifier whose key is made of parts with slashes between them. -/
def ofParts (collection : String) (parts : List String) : DocId :=
  ⟨collection, "/".intercalate parts⟩

/-- Splits at the first slash; both sides have to hold something. -/
def parse (text : String) : Except IdError DocId :=
  let collection := text.toList.takeWhile (· ≠ '/')
  match text.toList.dropWhile (· ≠ '/') with
  | _ :: first :: key =>
    if collection.isEmpty then .error (.document text)
    else .ok ⟨String.ofList collection, String.ofList (first :: key)⟩
  | _ => .error (.document text)

end DocId

/-- The time in milliseconds that leads fresh identifiers. -/
def freshMillis : Nat := 0x1a100000000

/-- The text of the fresh identifier with a given number: a time leads, then the version 7 and
the number. The time is the same for all, so that later ones sort later. -/
def freshText (number : Nat) : String :=
  let digits (width n : Nat) : List Char :=
    let all := Nat.toDigits 16 n
    List.replicate (width - all.length) '0' ++ all
  let time := digits 12 freshMillis
  let high := digits 3 (number / 0x1000000000000000 % 0x1000)
  let low := digits 15 (number % 0x1000000000000000)
  String.ofList (time.take 8 ++ '-' :: time.drop 8 ++ '-' :: '7' :: high ++
    '-' :: '8' :: low.take 3 ++ '-' :: low.drop 3)

end Jobyard
