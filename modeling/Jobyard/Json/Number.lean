import Jobyard.Json.Basic
import Jobyard.Number.Scaled
import Jobyard.Number.Shortest
import Jobyard.Text.Whole

/-!
Numbers of JSON texts. A number without fraction and exponent is a whole number when it lies in
the kept range. All others are doubles, read from as many digits as fit into 64 bits.
-/

namespace Jobyard.Json

/-- The written parts of a number. -/
structure Numeral where
  negative : Bool
  whole : List Char
  fraction : List Char
  exponent : Option (Bool × List Char)

namespace Numeral

def exponent? : List Char → Option (Option (Bool × List Char))
  | [] => some none
  | c :: rest =>
    if c = 'e' ∨ c = 'E' then
      let (negative, digits) :=
        match rest with
        | '+' :: digits => (false, digits)
        | '-' :: digits => (true, digits)
        | digits => (false, digits)
      if digits.isEmpty || !digits.all Char.isDigit then none else some (some (negative, digits))
    else none

def fraction? : List Char → Option (List Char × List Char)
  | '.' :: rest =>
    let digits := rest.takeWhile Char.isDigit
    if digits.isEmpty then none else some (digits, rest.dropWhile Char.isDigit)
  | rest => some ([], rest)

/-- Zeros may not precede another digit of the whole part. -/
def whole? (cs : List Char) : Option (List Char × List Char) :=
  let digits := cs.takeWhile Char.isDigit
  match digits with
  | [] => none
  | '0' :: _ :: _ => none
  | _ => some (digits, cs.dropWhile Char.isDigit)

def read? (cs : List Char) : Option Numeral := do
  let (negative, rest) :=
    match cs with
    | '-' :: rest => (true, rest)
    | rest => (false, rest)
  let (whole, rest) ← whole? rest
  let (fraction, rest) ← fraction? rest
  let exponent ← exponent? rest
  return { negative, whole, fraction, exponent }

/-- Digits gathered while they fit into 64 bits. -/
structure Gathered where
  significand : Nat
  taken : Nat
  left : Nat

def significandLimit : Nat := 0x10000000000000000

def Gathered.push (g : Gathered) (c : Char) : Gathered :=
  let next := 10 * g.significand + (c.toNat - '0'.toNat)
  if g.left = 0 ∧ next < significandLimit then
    { g with significand := next, taken := g.taken + 1 }
  else
    { g with left := g.left + 1 }

def gather (significand : Nat) (digits : List Char) : Gathered :=
  digits.foldl Gathered.push ⟨significand, 0, 0⟩

def exponentValue (n : Numeral) : Int :=
  match n.exponent with
  | none => 0
  | some (negative, digits) =>
    let size : Int := ((Text.digits? digits).getD 0 : Nat)
    if negative then -size else size

def double? (n : Numeral) (significand : Nat) (exponent : Int) : Option Json :=
  (Double.scale? significand exponent).map fun x =>
    .double (if n.negative then x.negated else x)

/-- A negative zero is a double, and so is a whole number outside the kept range. -/
def value? (n : Numeral) : Option Json :=
  let whole := gather 0 n.whole
  if n.fraction.isEmpty && n.exponent.isNone && whole.left == 0 then
    if !n.negative then some (.int whole.significand)
    else if whole.significand ≠ 0 ∧ leastInt ≤ -(whole.significand : Int) then
      some (.int (-whole.significand))
    else n.double? whole.significand 0
  else
    let all := gather whole.significand n.fraction
    n.double? all.significand (whole.left - all.taken + n.exponentValue)

end Numeral

def readNumber? (cs : List Char) : Option Json :=
  (Numeral.read? cs).bind Numeral.value?

/-- The exponents of the first digit that are written without an exponent. -/
def positionalLow : Int := -5

def positionalHigh : Int := 16

/-- The shortest digits, with a point in their place or with a signed exponent. -/
def doubleText (x : Double) : String :=
  let sign := if x.negative then "-" else ""
  if x.magnitude = 0 then sign ++ "0.0"
  else
    let decimal := x.shortest
    let digits := Nat.toDigits 10 decimal.digits
    let point : Int := digits.length + decimal.exponent
    let text : List Char :=
      if positionalLow ≤ point - 1 ∧ point - 1 < positionalHigh then
        if point ≤ 0 then '0' :: '.' :: (List.replicate (-point).toNat '0' ++ digits)
        else if decimal.exponent < 0 then
          digits.take point.toNat ++ '.' :: digits.drop point.toNat
        else digits ++ List.replicate decimal.exponent.toNat '0' ++ ['.', '0']
      else
        let exponent := point - 1
        let fraction :=
          match digits.drop 1 with
          | [] => []
          | rest => '.' :: rest
        digits.take 1 ++ fraction ++
          'e' :: (if exponent < 0 then '-' else '+') :: Nat.toDigits 10 exponent.natAbs
    sign ++ String.ofList text

end Jobyard.Json
