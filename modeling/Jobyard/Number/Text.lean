import Jobyard.Number.Scaled
import Jobyard.Text.Caseless
import Jobyard.Text.Whole

/-!
Doubles read from texts, rounded once. Besides decimals there are the words for infinity and for
the value that is no number.
-/

namespace Jobyard.Double

/-- Digits, a point among or beside them, and an exponent. -/
def decimal? (negative : Bool) (cs : List Char) : Option Double := do
  let whole := cs.takeWhile Char.isDigit
  let rest := cs.dropWhile Char.isDigit
  let (fraction, rest) :=
    match rest with
    | '.' :: rest => (rest.takeWhile Char.isDigit, rest.dropWhile Char.isDigit)
    | rest => ([], rest)
  let digits ← Text.digits? (whole ++ fraction)
  let exponent : Int ← (
    match rest with
    | [] => some 0
    | c :: rest =>
      if c = 'e' ∨ c = 'E' then
        match rest with
        | '-' :: rest => (Text.digits? rest).map fun n => -(n : Int)
        | '+' :: rest => (Text.digits? rest).map fun n => (n : Int)
        | rest => (Text.digits? rest).map fun n => (n : Int)
      else none)
  return ofDecimal negative digits (whole.length + fraction.length) (exponent - fraction.length)

def word? (negative : Bool) (cs : List Char) : Option Double :=
  let word := String.ofList cs
  if Text.sameLetters word "inf" || Text.sameLetters word "infinity" then
    some (infinity negative)
  else if Text.sameLetters word "nan" then some (undefined negative)
  else none

def parse? (text : String) : Option Double :=
  let (negative, cs) :=
    match text.toList with
    | '-' :: cs => (true, cs)
    | '+' :: cs => (false, cs)
    | cs => (false, cs)
  word? negative cs <|> decimal? negative cs

end Jobyard.Double
