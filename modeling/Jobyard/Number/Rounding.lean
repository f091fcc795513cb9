import Jobyard.Number.Double

/-!
The double nearest to a quotient of natural numbers; of two equally near ones the even one.
-/

namespace Jobyard

namespace Rounding

/-- The natural number nearest to `num / den`, the even one of two. -/
def nearestEven (num den : Nat) : Nat :=
  let quotient := num / den
  let twice := 2 * (num % den)
  if twice < den then quotient
  else if den < twice then quotient + 1
  else if quotient % 2 = 0 then quotient
  else quotient + 1

/-- `num / den` divided by `2 ^ exponent`, as a quotient. -/
def scaled (num den : Nat) (exponent : Int) : Nat × Nat :=
  (num * Nat.pow 2 (-exponent).toNat, den * Nat.pow 2 exponent.toNat)

/-- The exponent of the last binary digit that a double near `num / den` can hold. -/
def lastExponent (num den : Nat) : Int :=
  let guess : Int := (num.log2 : Int) - den.log2 - 53
  let exponent := max guess Double.leastExponent
  let (n, d) := scaled num den exponent
  if n / d < 2 * Double.hiddenBit then exponent else exponent + 1

/-- A carry out of the 53 digits moves into the exponent, and out of the greatest exponent into
infinity, because magnitudes are counted in steps of the last digit. -/
def magnitude (num den : Nat) : Nat :=
  if num = 0 then 0
  else
    let exponent := lastExponent num den
    let (n, d) := scaled num den exponent
    let steps := (exponent - Double.leastExponent).toNat
    min (steps * Double.hiddenBit + nearestEven n d) Double.infinityMagnitude

end Rounding

namespace Double

/-- The double nearest to a quotient, with the given sign. -/
def ofRatio (negative : Bool) (num den : Nat) : Double :=
  ofMagnitude negative (Rounding.magnitude num den)

def ofInt (n : Int) : Double :=
  ofRatio (n < 0) n.natAbs 1

def mul (x y : Double) : Double :=
  let (a, b) := x.ratio
  let (c, d) := y.ratio
  ofRatio (x.negative != y.negative) (a * c) (b * d)

/-- The rounded quotient of finite numbers; `y` is not zero. -/
def div (x y : Double) : Double :=
  let (a, b) := x.ratio
  let (c, d) := y.ratio
  ofRatio (x.negative != y.negative) (a * d) (b * c)

end Double

end Jobyard
