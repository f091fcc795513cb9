import Jobyard.Number.Double

/-!
The shortest decimal that reads back as a given double: of the decimals nearer to it than to any
other double, one with the fewest digits, and of those the nearest.
-/

namespace Jobyard

/-- A decimal `digits * 10 ^ exponent`. -/
structure Decimal where
  digits : Nat
  exponent : Int
deriving DecidableEq, Repr

namespace Shortest

/-- A positive value between its bounds, all three over one denominator. -/
structure Interval where
  low : Nat
  value : Nat
  high : Nat
  denominator : Nat
  closed : Bool

/-- The reals that round to `mantissa * 2 ^ exponent`. Below a power of two the doubles are twice
as dense, so the lower bound is nearer there. -/
def Interval.around (mantissa : Nat) (exponent : Int) : Interval :=
  let scale := Nat.pow 2 exponent.toNat
  let atPower := mantissa == Double.hiddenBit && Double.leastExponent < exponent
  { low := (if atPower then 4 * mantissa - 1 else 4 * mantissa - 2) * scale
    value := 4 * mantissa * scale
    high := (4 * mantissa + 2) * scale
    denominator := 4 * Nat.pow 2 (-exponent).toNat
    closed := mantissa % 2 == 0 }

namespace Interval

/-- Whether `k * 10 ^ grid` lies in the interval. -/
def holds (i : Interval) (grid : Int) (k : Nat) : Bool :=
  let point := k * Nat.pow 10 grid.toNat * i.denominator
  let unit := Nat.pow 10 (-grid).toNat
  if i.closed then i.low * unit ≤ point && point ≤ i.high * unit
  else i.low * unit < point && point < i.high * unit

/-- The point of the grid that lies in the interval and is nearest to the value, if one does. -/
def nearest? (i : Interval) (grid : Int) : Option Nat :=
  let value := i.value * Nat.pow 10 (-grid).toNat
  let unit := i.denominator * Nat.pow 10 grid.toNat
  let below := value / unit
  let above := below + 1
  match i.holds grid below && below != 0, i.holds grid above with
  | false, false => none
  | true, false => some below
  | false, true => some above
  | true, true =>
    let twice := 2 * (value % unit)
    if twice < unit then some below
    else if unit < twice then some above
    else if below % 2 = 0 then some below
    else some above

/-- The exponent of the first decimal digit of the value. -/
def leading (i : Interval) : Int :=
  let guess : Int := ((i.value.log2 : Int) - i.denominator.log2) * 30103 / 100000
  let reaches (e : Int) : Bool :=
    i.denominator * Nat.pow 10 e.toNat ≤ i.value * Nat.pow 10 (-e).toNat
  if reaches (guess + 1) then guess + 1
  else if reaches guess then guess
  else guess - 1

/-- Tries one more digit after each failure. -/
def search (i : Interval) (first : Int) : Nat → Decimal
  | 0 => ⟨i.value / i.denominator, 0⟩
  | more + 1 =>
    let grid := first - (16 - more : Nat)
    match i.nearest? grid with
    | some k => ⟨k, grid⟩
    | none => search i first more

end Interval

/-- The same value without zeros at the end of the digits. -/
def strip : Nat → Decimal → Decimal
  | 0, d => d
  | fuel + 1, d =>
    if d.digits % 10 = 0 && d.digits != 0 then strip fuel ⟨d.digits / 10, d.exponent + 1⟩ else d

end Shortest

/-- The shortest decimal of a finite double other than zero, without its sign. -/
def Double.shortest (x : Double) : Decimal :=
  let (mantissa, exponent) := x.parts
  let interval := Shortest.Interval.around mantissa exponent
  Shortest.strip 20 (interval.search interval.leading 17)

end Jobyard
