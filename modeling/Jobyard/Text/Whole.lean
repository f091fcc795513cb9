/-!
Whole numbers written in decimal digits 0 to 9, with an optional sign, inside given bounds.
-/

namespace Jobyard.Text

/-- The number that a non-empty run of digits denotes. -/
def digits? : List Char → Option Nat
  | [] => none
  | cs =>
    if cs.all Char.isDigit then
      some (cs.foldl (fun n c => 10 * n + (c.toNat - '0'.toNat)) 0)
    else
      none

/-- A number from 0 to `limit`; a plus sign may precede it, a minus sign may not. -/
def natural? (limit : Nat) (s : String) : Option Nat :=
  let number :=
    match s.toList with
    | '+' :: rest => digits? rest
    | cs => digits? cs
  number.filter (· ≤ limit)

/-- A number from `low` to `high`, with either sign or none. -/
def integer? (low high : Int) (s : String) : Option Int :=
  let number : Option Int :=
    match s.toList with
    | '+' :: rest => (digits? rest).map Int.ofNat
    | '-' :: rest => (digits? rest).map fun n => -Int.ofNat n
    | cs => (digits? cs).map Int.ofNat
  number.filter fun n => low ≤ n ∧ n ≤ high

/-- The digits of `n`, with zeros in front up to `width` of them. -/
def padded (width n : Nat) : String :=
  let digits := Nat.toDigits 10 n
  String.ofList (List.replicate (width - digits.length) '0' ++ digits)

end Jobyard.Text
