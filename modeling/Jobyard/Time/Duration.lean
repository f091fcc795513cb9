import Jobyard.Time.Instant
import Jobyard.Text.Whole

/-!
Unsigned lengths of time, their conversion to spans, and their short texts such as `1.5s`.
-/

namespace Jobyard

structure Duration where
  nanos : Nat
deriving DecidableEq, Repr

namespace Duration

def ofParts (seconds nanos : Nat) : Duration := ⟨seconds * nanosPerSecond + nanos⟩

def ofSeconds (n : Nat) : Duration := ofParts n 0

def ofMillis (n : Nat) : Duration := ⟨n * 1000000⟩

def seconds (d : Duration) : Nat := d.nanos / nanosPerSecond

def subsecond (d : Duration) : Nat := d.nanos % nanosPerSecond

def isZero (d : Duration) : Bool := d.nanos = 0

/-- The same length as a span, when spans reach so far. -/
def toSpan? (d : Duration) : Option Span :=
  if (d.nanos : Int) ≤ Span.greatest.nanos then some ⟨d.nanos⟩ else none

/-- The same length as a span, or the greatest span. -/
def toSpan (d : Duration) : Span := d.toSpan?.getD Span.greatest

/-- `n` units, each of `size` parts, with the fewest decimals. -/
def decimals (n size width : Nat) : String :=
  let whole := toString (n / size)
  let fraction := n % size
  if fraction = 0 then whole
  else
    let digits := (Text.padded width fraction).toList
    whole ++ "." ++ String.ofList (digits.reverse.dropWhile (· = '0')).reverse

/-- The length in the greatest unit that it reaches. -/
def text (d : Duration) : String :=
  if nanosPerSecond ≤ d.nanos then decimals d.nanos nanosPerSecond 9 ++ "s"
  else if 1000000 ≤ d.nanos then decimals d.nanos 1000000 6 ++ "ms"
  else if 1000 ≤ d.nanos then decimals d.nanos 1000 3 ++ "µs"
  else toString d.nanos ++ "ns"

end Duration

end Jobyard
