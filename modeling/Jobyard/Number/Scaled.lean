import Jobyard.Number.Rounding

/-!
Decimals read into doubles in two ways. `Double.ofDecimal` rounds once. `Double.scale?` rounds the
digits first and then every multiplication or division by a power of ten, which is what the
readers of stored JSON do; it refuses values beyond the greatest double.
-/

namespace Jobyard

namespace Double

/-- Beyond these many places a decimal rounds to zero or to infinity. -/
def farPlaces : Nat := 400

/-- The double nearest to `digits * 10 ^ exponent`, where `places` bounds the digits' number. -/
def ofDecimal (negative : Bool) (digits places : Nat) (exponent : Int) : Double :=
  if digits = 0 then ofMagnitude negative 0
  else if (farPlaces : Int) < exponent then infinity negative
  else if exponent + places < -(farPlaces : Int) then ofMagnitude negative 0
  else ofRatio negative (digits * Nat.pow 10 exponent.toNat) (Nat.pow 10 (-exponent).toNat)

/-- The greatest power of ten that is a double. -/
def greatestPower : Nat := 308

def power (n : Nat) : Double := ofRatio false (Nat.pow 10 n) 1

def shrink (x : Double) (n : Nat) : Double :=
  if n ≤ greatestPower then x.div (power n)
  else if x.magnitude = 0 then x
  else shrink (x.div (power greatestPower)) (n - greatestPower)
termination_by n
decreasing_by simp only [greatestPower] at *; omega

/-- The absolute value `significand * 10 ^ exponent`; `none` when it is too great. -/
def scale? (significand : Nat) (exponent : Int) : Option Double :=
  let start := ofRatio false significand 1
  if exponent < 0 then some (start.shrink exponent.natAbs)
  else if exponent ≤ greatestPower then
    let scaled := start.mul (power exponent.toNat)
    if scaled.isFinite then some scaled else none
  else if significand = 0 then some start
  else none

def negated (x : Double) : Double := ofMagnitude (!x.negative) x.magnitude

end Double

end Jobyard
