import Jobyard.Json.Reader
import Mathlib.Data.List.TakeWhile

/-!
Whole numbers survive their decimal digits, within the range in which they are kept as whole
numbers.
-/

namespace Jobyard.Json

theorem toDigits_eq_cons {n : Nat} (h : 0 < n) :
    ∃ first rest, Nat.toDigits 10 n = first :: rest ∧ first ≠ '0' := by
  induction n using Nat.strongRecOn with
  | ind n ih =>
      rw [Nat.toDigits_eq_if (by decide)]
      split
      · rename_i hlt
        have hfirst : ∀ n < 10, 0 < n → Nat.digitChar n ≠ '0' := by decide
        exact ⟨_, [], rfl, hfirst n hlt h⟩
      · obtain ⟨first, rest, hdigits, hfirst⟩ := ih (n / 10) (by omega) (by omega)
        exact ⟨first, rest ++ [_], by rw [hdigits]; rfl, hfirst⟩

namespace Numeral

theorem whole?_toDigits (n : Nat) :
    whole? (Nat.toDigits 10 n) = some (Nat.toDigits 10 n, []) := by
  have hall : ∀ c ∈ Nat.toDigits 10 n, c.isDigit = true := fun c hc =>
    Nat.isDigit_of_mem_toDigits (by decide) (by decide) hc
  unfold whole?
  rw [List.takeWhile_eq_self_iff.mpr hall, List.dropWhile_eq_nil_iff.mpr hall]
  cases Nat.eq_zero_or_pos n with
  | inl hzero =>
      rw [hzero, Nat.toDigits_zero]
      rfl
  | inr hpos =>
      obtain ⟨first, rest, hdigits, hfirst⟩ := toDigits_eq_cons hpos
      rw [hdigits]
      simp only
      split
      · rename_i hnil
        cases hnil
      · rename_i hcons
        cases hcons
        exact absurd rfl hfirst
      · rfl

theorem read?_toDigits (n : Nat) :
    read? (Nat.toDigits 10 n) = some ⟨false, Nat.toDigits 10 n, [], none⟩ ∧
      read? ('-' :: Nat.toDigits 10 n) = some ⟨true, Nat.toDigits 10 n, [], none⟩ := by
  have hdash : ∀ rest, Nat.toDigits 10 n ≠ '-' :: rest := by
    intro rest hdigits
    have hdigit := Nat.isDigit_of_mem_toDigits (b := 10) (n := n) (c := '-') (by decide) (by decide)
      (hdigits ▸ List.mem_cons_self)
    cases hdigit
  constructor
  · unfold read?
    split
    rename_i hsplit
    split at hsplit
    · rename_i hcons
      exact absurd hcons (hdash _)
    · cases hsplit
      rw [whole?_toDigits]
      rfl
  · unfold read?
    simp only [whole?_toDigits]
    rfl

theorem le_ofDigitChars (digits : List Char) (value : Nat) :
    value ≤ Nat.ofDigitChars 10 digits value := by
  rw [Nat.ofDigitChars_eq_ofDigitChars_zero]
  exact Nat.le_add_right_of_le (Nat.le_mul_of_pos_left value (Nat.pow_pos (by decide)))

theorem foldl_push {digits : List Char} {value taken : Nat}
    (h : Nat.ofDigitChars 10 digits value < significandLimit) :
    digits.foldl Gathered.push ⟨value, taken, 0⟩ =
      ⟨Nat.ofDigitChars 10 digits value, taken + digits.length, 0⟩ := by
  induction digits generalizing value taken with
  | nil => rfl
  | cons c rest ih =>
      rw [Nat.ofDigitChars_cons] at h ⊢
      have hnext := Nat.lt_of_le_of_lt (le_ofDigitChars rest _) h
      have hpush : Gathered.push ⟨value, taken, 0⟩ c =
          ⟨10 * value + (c.toNat - '0'.toNat), taken + 1, 0⟩ := if_pos ⟨rfl, hnext⟩
      rw [List.foldl_cons, hpush, ih h, List.length_cons, Nat.add_assoc, Nat.add_comm 1]

theorem gather_toDigits {n : Nat} (h : n < significandLimit) :
    gather 0 (Nat.toDigits 10 n) = ⟨n, (Nat.toDigits 10 n).length, 0⟩ := by
  unfold gather
  rw [foldl_push (by rwa [Nat.ofDigitChars_ten_toDigits]), Nat.ofDigitChars_ten_toDigits,
    Nat.zero_add]

theorem value?_toDigits {n : Nat} (h : n < significandLimit) :
    value? ⟨false, Nat.toDigits 10 n, [], none⟩ = some (.int n) := by
  unfold value?
  simp only [gather_toDigits h]
  rfl

theorem value?_toDigits_negative {n : Nat} (hpos : n ≠ 0) (hleast : leastInt ≤ -(n : Int)) :
    value? ⟨true, Nat.toDigits 10 n, [], none⟩ = some (.int (-n)) := by
  have hfits : n < significandLimit := by
    simp only [leastInt] at hleast
    simp only [significandLimit]
    omega
  have hkept : n ≠ 0 ∧ leastInt ≤ -(n : Int) := ⟨hpos, hleast⟩
  unfold value?
  simp only [gather_toDigits hfits, if_pos hkept]
  rfl

end Numeral

theorem toList_toString (n : Nat) : (toString (n : Int)).toList = Nat.toDigits 10 n :=
  Nat.toList_repr

theorem toList_toString_negative (n : Nat) :
    (toString (-((n + 1 : Nat) : Int))).toList = '-' :: Nat.toDigits 10 (n + 1) := by
  change ("-" ++ (n + 1).repr).toList = _
  rw [String.toList_append, Nat.toList_repr]
  rfl

theorem readNumber?_toString {n : Int} (hleast : leastInt ≤ n) (hgreatest : n ≤ greatestInt) :
    readNumber? (toString n).toList = some (.int n) := by
  unfold readNumber?
  cases n with
  | ofNat n =>
      have hfits : n < Numeral.significandLimit := by
        rw [Int.ofNat_eq_natCast] at hgreatest
        simp only [greatestInt] at hgreatest
        simp only [Numeral.significandLimit]
        omega
      rw [Int.ofNat_eq_natCast, toList_toString, (Numeral.read?_toDigits n).1]
      exact Numeral.value?_toDigits hfits
  | negSucc n =>
      rw [Int.negSucc_eq] at hleast ⊢
      rw [show (n : Int) + 1 = (n + 1 : Nat) from rfl] at hleast ⊢
      rw [toList_toString_negative, (Numeral.read?_toDigits (n + 1)).2]
      exact Numeral.value?_toDigits_negative (Nat.succ_ne_zero n) hleast

theorem toString_eq_cons (n : Int) :
    ∃ first rest, (toString n).toList = first :: rest ∧ (first = '-' ∨ first.isDigit = true) ∧
      ∀ c ∈ rest, c.isDigit = true := by
  have hall : ∀ m, ∀ c ∈ Nat.toDigits 10 m, c.isDigit = true := fun m c hc =>
    Nat.isDigit_of_mem_toDigits (by decide) (by decide) hc
  cases n with
  | ofNat n =>
      rw [Int.ofNat_eq_natCast, toList_toString]
      have hdigits := hall n
      cases hcons : Nat.toDigits 10 n with
      | nil => exact absurd hcons Nat.toDigits_ne_nil
      | cons first rest =>
          rw [hcons] at hdigits
          obtain ⟨hfirst, hrest⟩ := List.forall_mem_cons.mp hdigits
          exact ⟨first, rest, rfl, .inr hfirst, hrest⟩
  | negSucc n =>
      rw [Int.negSucc_eq, show (n : Int) + 1 = (n + 1 : Nat) from rfl, toList_toString_negative]
      exact ⟨'-', _, rfl, .inl rfl, hall (n + 1)⟩

theorem ne_of_isDigit {c : Char} (h : c.isDigit = true) (other : Char)
    (hother : other.isDigit = false) : c ≠ other := by
  intro heq
  rw [heq, hother] at h
  cases h

theorem isSpace_of_isDigit {c : Char} (h : c.isDigit = true) : isSpace c = false := by
  simp [isSpace, ne_of_isDigit h ' ' rfl, ne_of_isDigit h '\t' rfl,
    ne_of_isDigit h '\n' rfl, ne_of_isDigit h '\r' rfl]

namespace Reading

variable {e : Option Embedding} {limit : Nat} {frames : List Frame}

theorem foldlM_digits {digits : List Char} (h : ∀ c ∈ digits, c.isDigit = true)
    (written : List Char) : digits.foldlM (step? e limit) ⟨frames, .number written⟩ =
      some ⟨frames, .number (digits.reverse ++ written)⟩ := by
  induction digits generalizing written with
  | nil => rfl
  | cons c rest ih =>
      obtain ⟨hc, hrest⟩ := List.forall_mem_cons.mp h
      have hstep : step? e limit ⟨frames, .number written⟩ c =
          some ⟨frames, .number (c :: written)⟩ := by
        simp [step?, isNumberChar, hc]
      rw [List.foldlM_cons, hstep]
      simp only [Option.bind_eq_bind, Option.bind_some]
      rw [ih hrest, List.reverse_cons, List.append_assoc]
      rfl

theorem step?_number {c : Char} (h : c = '-' ∨ c.isDigit = true) {orClose : Bool} :
    step? e limit ⟨frames, .value orClose⟩ c = some ⟨frames, .number [c]⟩ := by
  rcases h with rfl | hdigit
  · cases orClose <;> rfl
  · simp [step?, begin?, isSpace_of_isDigit hdigit, hdigit, ne_of_isDigit hdigit ']' rfl,
      ne_of_isDigit hdigit '"' rfl]

theorem foldlM_toString (n : Int) {orClose : Bool} :
    (toString n).toList.foldlM (step? e limit) ⟨frames, .value orClose⟩ =
      some ⟨frames, .number (toString n).toList.reverse⟩ := by
  obtain ⟨first, rest, htext, hfirst, hrest⟩ := toString_eq_cons n
  rw [htext, List.foldlM_cons, step?_number hfirst]
  simp only [Option.bind_eq_bind, Option.bind_some]
  rw [foldlM_digits hrest, List.reverse_cons]

end Reading

end Jobyard.Json
