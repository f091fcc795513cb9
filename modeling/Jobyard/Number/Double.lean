/-!
Double numbers as their 64 bits: a sign, and a magnitude whose order is the order of the absolute
values. Two orders are kept apart: the numeric one, where the two zeros are equal and nothing
compares with a number that is none, and the total one, which tells all bit patterns apart.
-/

namespace Jobyard

structure Double where
  bits : UInt64
deriving DecidableEq

namespace Double

/-- The magnitude of infinity; those above it belong to the values that are no numbers. -/
def infinityMagnitude : Nat := 0x7ff0000000000000

/-- The least magnitude that no bit pattern has. -/
def magnitudeLimit : Nat := 0x8000000000000000

def negative (x : Double) : Bool := magnitudeLimit ≤ x.bits.toNat

def magnitude (x : Double) : Nat := x.bits.toNat % magnitudeLimit

def ofMagnitude (negative : Bool) (magnitude : Nat) : Double :=
  ⟨UInt64.ofNat (if negative then magnitudeLimit + magnitude else magnitude)⟩

def zero : Double := ofMagnitude false 0

def infinity (negative : Bool) : Double := ofMagnitude negative infinityMagnitude

/-- The quiet value that is no number. -/
def undefined (negative : Bool) : Double := ofMagnitude negative 0x7ff8000000000000

def isUndefined (x : Double) : Bool := infinityMagnitude < x.magnitude

def isFinite (x : Double) : Bool := x.magnitude < infinityMagnitude

instance : Inhabited Double := ⟨zero⟩

/-- The place of a bit pattern in the numeric order; both zeros have place 0. -/
def place (x : Double) : Int :=
  if x.negative then -(x.magnitude : Int) else x.magnitude

/-- The place of a bit pattern in the total order, different for different patterns. -/
def rank (x : Double) : Int :=
  if x.negative then -(x.magnitude : Int) - 1 else x.magnitude

def less (x y : Double) : Bool :=
  !x.isUndefined && !y.isUndefined && x.place < y.place

def atMost (x y : Double) : Bool :=
  !x.isUndefined && !y.isUndefined && x.place ≤ y.place

def same (x y : Double) : Bool :=
  !x.isUndefined && !y.isUndefined && x.place == y.place

/-- The value of the first of 53 binary digits, which the bits do not spell out. -/
def hiddenBit : Nat := 0x10000000000000

/-- The least exponent of a binary digit. -/
def leastExponent : Int := -1074

/-- A finite absolute value as `mantissa * 2 ^ exponent`. -/
def parts (x : Double) : Nat × Int :=
  let field : Nat := x.magnitude / hiddenBit
  let fraction : Nat := x.magnitude % hiddenBit
  if field = 0 then (fraction, leastExponent)
  else (hiddenBit + fraction, leastExponent + ((field : Int) - 1))

/-- A finite absolute value as a quotient. -/
def ratio (x : Double) : Nat × Nat :=
  let (mantissa, exponent) := x.parts
  (mantissa * Nat.pow 2 exponent.toNat, Nat.pow 2 (-exponent).toNat)

/-- The bits as sixteen digits to the base 16. -/
def hex (x : Double) : String :=
  let digits := Nat.toDigits 16 x.bits.toNat
  String.ofList (List.replicate (16 - digits.length) '0' ++ digits)

end Double

end Jobyard
