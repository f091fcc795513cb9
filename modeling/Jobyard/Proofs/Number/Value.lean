import Jobyard.Number.Double
import Mathlib.Algebra.Order.Field.Rat
import Mathlib.Algebra.Order.Group.Int
import Mathlib.Order.Monotone.Odd
import Mathlib.Tactic.Linarith
import Mathlib.Tactic.Positivity

/-!
The values of doubles. Comparisons of finite doubles compare their values, and the total order of
bit patterns is that of the values with the negative zero before the positive one.
-/

namespace Jobyard.Double

def value (x : Double) : ℚ :=
  let size : ℚ := x.ratio.1 / x.ratio.2
  if x.negative then -size else size

/-- One finite double before another one in the total order: by their values, and of the two zeros
the negative one first. -/
def Precedes (x y : Double) : Prop :=
  x.value < y.value ∨ (x.value = y.value ∧ x.negative = true ∧ y.negative = false)

instance (x y : Double) : Decidable (x.Precedes y) :=
  inferInstanceAs (Decidable (_ ∨ _ ∧ _ ∧ _))

section Steps

/-- An absolute value as a multiple of the least positive one. -/
def stepsOf : (field fraction : Nat) → Nat
  | 0, fraction => fraction
  | field + 1, fraction => (hiddenBit + fraction) * 2 ^ field

def steps (magnitude : Nat) : Nat := stepsOf (magnitude / hiddenBit) (magnitude % hiddenBit)

theorem stepsOf_lt_succ (field fraction : Nat) :
    stepsOf field fraction < stepsOf field (fraction + 1) := by
  cases field with
  | zero => exact Nat.lt_succ_self fraction
  | succ field =>
      exact Nat.mul_lt_mul_of_pos_right (Nat.lt_succ_self _) (Nat.two_pow_pos field)

theorem stepsOf_lt_next {field fraction : Nat} (h : fraction < hiddenBit) :
    stepsOf field fraction < stepsOf (field + 1) 0 := by
  cases field with
  | zero => simpa [stepsOf] using h
  | succ field =>
      have hdouble : stepsOf (field + 1 + 1) 0 = (hiddenBit + hiddenBit) * 2 ^ field := by
        rw [stepsOf, Nat.add_zero, Nat.pow_succ', ← Nat.mul_assoc, Nat.mul_two]
      rw [hdouble]
      exact Nat.mul_lt_mul_of_pos_right (Nat.add_lt_add_left h _) (Nat.two_pow_pos field)

theorem steps_strictMono : StrictMono steps := by
  refine strictMono_nat_of_lt_succ fun magnitude => ?_
  have hpos : 0 < hiddenBit := by decide
  have hfraction := Nat.mod_lt magnitude hpos
  have hsplit := Nat.div_add_mod magnitude hiddenBit
  unfold steps
  by_cases hlast : magnitude % hiddenBit + 1 = hiddenBit
  · have hnext : magnitude + 1 = hiddenBit * (magnitude / hiddenBit + 1) := by
      rw [Nat.mul_add_one]
      omega
    rw [hnext, Nat.mul_div_cancel_left _ hpos, Nat.mul_mod_right]
    exact stepsOf_lt_next hfraction
  · have hnext : magnitude + 1 =
        hiddenBit * (magnitude / hiddenBit) + (magnitude % hiddenBit + 1) := by omega
    have hless : magnitude % hiddenBit + 1 < hiddenBit := by omega
    rw [hnext, Nat.mul_add_div hpos, Nat.mul_add_mod, Nat.div_eq_of_lt hless,
      Nat.mod_eq_of_lt hless, Nat.add_zero]
    exact stepsOf_lt_succ _ _

/-- A mantissa with an exponent that lies `shift` above the least one. -/
theorem quotient_eq (mantissa shift : Nat) :
    ((mantissa * 2 ^ (leastExponent + shift).toNat : Nat) : ℚ) /
        (2 ^ (-(leastExponent + shift)).toNat : Nat) =
      ((mantissa * 2 ^ shift : Nat) : ℚ) / 2 ^ (-leastExponent).toNat := by
  have hexponents : (leastExponent + shift).toNat + (-leastExponent).toNat =
      shift + (-(leastExponent + shift)).toNat := by
    unfold leastExponent
    omega
  push_cast
  rw [div_eq_div_iff (by positivity) (by positivity)]
  calc (mantissa * 2 ^ (leastExponent + shift).toNat : ℚ) * 2 ^ (-leastExponent).toNat
      = mantissa * 2 ^ ((leastExponent + shift).toNat + (-leastExponent).toNat) := by
        rw [mul_assoc, pow_add]
    _ = mantissa * 2 ^ (shift + (-(leastExponent + shift)).toNat) := by rw [hexponents]
    _ = mantissa * 2 ^ shift * 2 ^ (-(leastExponent + shift)).toNat := by rw [pow_add, mul_assoc]

theorem ratio_eq_steps (x : Double) :
    (x.ratio.1 : ℚ) / x.ratio.2 = (steps x.magnitude : ℚ) / 2 ^ (-leastExponent).toNat := by
  have hpow : ∀ m n : Nat, Nat.pow m n = m ^ n := fun _ _ => rfl
  unfold ratio parts steps
  simp only [hpow]
  cases hfield : x.magnitude / hiddenBit with
  | zero =>
      have hquotient := quotient_eq (x.magnitude % hiddenBit) 0
      simp only [Nat.cast_zero, add_zero, pow_zero, mul_one] at hquotient
      exact hquotient
  | succ field =>
      have hexponent : leastExponent + (((field + 1 : Nat) : Int) - 1) = leastExponent + field := by
        omega
      simp only [Nat.succ_ne_zero, if_false, hexponent]
      exact quotient_eq _ field

end Steps

def signedSteps (place : Int) : Int := place.sign * steps place.natAbs

theorem signedSteps_natCast (magnitude : Nat) : signedSteps magnitude = steps magnitude := by
  cases magnitude with
  | zero => rfl
  | succ magnitude =>
      unfold signedSteps
      rw [Int.sign_natCast_of_ne_zero (Nat.succ_ne_zero _), Int.one_mul, Int.natAbs_natCast]

theorem signedSteps_neg (place : Int) : signedSteps (-place) = -signedSteps place := by
  unfold signedSteps
  rw [Int.sign_neg, Int.natAbs_neg, Int.neg_mul]

theorem signedSteps_lt_iff {a b : Int} : signedSteps a < signedSteps b ↔ a < b := by
  have hmono : StrictMono signedSteps := by
    refine strictMono_of_odd_strictMonoOn_nonneg signedSteps_neg fun a ha b hb hab => ?_
    obtain ⟨m, rfl⟩ := Int.eq_ofNat_of_zero_le ha
    obtain ⟨n, rfl⟩ := Int.eq_ofNat_of_zero_le hb
    rw [signedSteps_natCast, signedSteps_natCast]
    exact Int.ofNat_lt.mpr (steps_strictMono (Int.ofNat_lt.mp hab))
  exact hmono.lt_iff_lt

variable {x y : Double}

theorem value_eq_signedSteps (x : Double) :
    x.value = (signedSteps x.place : ℚ) / 2 ^ (-leastExponent).toNat := by
  unfold value place
  simp only [ratio_eq_steps]
  split
  · rw [signedSteps_neg, signedSteps_natCast]
    push_cast
    exact (neg_div _ _).symm
  · rw [signedSteps_natCast]
    rfl

theorem value_lt_iff : x.value < y.value ↔ x.place < y.place := by
  rw [value_eq_signedSteps, value_eq_signedSteps, div_lt_div_iff_of_pos_right (by positivity),
    Int.cast_lt, signedSteps_lt_iff]

theorem value_le_iff : x.value ≤ y.value ↔ x.place ≤ y.place := by
  rw [← not_lt, value_lt_iff, not_lt]

theorem value_eq_iff : x.value = y.value ↔ x.place = y.place := by
  rw [le_antisymm_iff, value_le_iff, value_le_iff, ← le_antisymm_iff]

theorem isUndefined_of_isFinite (h : x.isFinite) : x.isUndefined = false := by
  have hless : x.magnitude < infinityMagnitude := of_decide_eq_true h
  exact decide_eq_false (Nat.lt_asymm hless)

theorem atMost_iff (hx : x.isFinite) (hy : y.isFinite) : x.atMost y ↔ x.value ≤ y.value := by
  rw [value_le_iff]
  simp [atMost, isUndefined_of_isFinite hx, isUndefined_of_isFinite hy]

theorem less_iff (hx : x.isFinite) (hy : y.isFinite) : x.less y ↔ x.value < y.value := by
  rw [value_lt_iff]
  simp [less, isUndefined_of_isFinite hx, isUndefined_of_isFinite hy]

theorem rank_lt_iff : x.rank < y.rank ↔ x.Precedes y := by
  unfold Precedes
  rw [value_lt_iff, value_eq_iff]
  unfold rank place
  cases x.negative <;> cases y.negative <;>
    simp only [Bool.false_eq_true, reduceCtorEq, if_true, if_false, and_true, and_false, or_false]
    <;> omega

theorem rank_injective : Function.Injective rank := by
  intro x y h
  have hx : x.bits.toNat < 2 * magnitudeLimit := x.bits.toNat_lt
  have hy : y.bits.toNat < 2 * magnitudeLimit := y.bits.toNat_lt
  have hbits : x.bits.toNat = y.bits.toNat := by
    unfold rank negative magnitude at h
    unfold magnitudeLimit at *
    simp only [decide_eq_true_eq] at h
    split at h <;> split at h <;> omega
  cases x
  cases y
  exact congrArg Double.mk (UInt64.toNat_inj.mp hbits)

end Jobyard.Double
