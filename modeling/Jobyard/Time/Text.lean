import Jobyard.Time.Instant
import Jobyard.Text.Blank
import Jobyard.Text.Caseless
import Jobyard.Text.Whole

/-!
Points of time as texts. `Instant.text` writes one form; the strict reader takes fixed widths with
an offset, the lenient one also blanks, short numbers and signed years.
-/

namespace Jobyard

namespace TimeText

/-- Four digits, or a sign and at least four digits outside the years 0 to 9999. -/
def year (n : Int) : String :=
  if 0 ≤ n ∧ n ≤ 9999 then Text.padded 4 n.toNat
  else (if n < 0 then "-" else "+") ++ Text.padded 4 n.natAbs

def date (d : Date) : String :=
  year d.year ++ "-" ++ Text.padded 2 d.month ++ "-" ++ Text.padded 2 d.day

/-- None, three, six or nine decimals, as few as are exact. -/
def fraction (nano : Nat) : String :=
  if nano = 0 then ""
  else if nano % 1000000 = 0 then "." ++ Text.padded 3 (nano / 1000000)
  else if nano % 1000 = 0 then "." ++ Text.padded 6 (nano / 1000)
  else "." ++ Text.padded 9 nano

end TimeText

namespace Instant

/-- A leap second is written as second 60. -/
def text (t : Instant) : String :=
  let second := t.second % 60 + (if t.isLeap then 1 else 0)
  let nano := t.nano % nanosPerSecond
  TimeText.date t.date ++ "T" ++ Text.padded 2 t.hour ++ ":" ++
    Text.padded 2 (t.second / 60 % 60) ++ ":" ++ Text.padded 2 second ++
    TimeText.fraction nano ++ "Z"

end Instant

namespace TimeText

/-- What a text says about a point of time, before it is known to exist. -/
structure Fields where
  date : Date
  hour : Nat
  minute : Nat
  second : Nat
  nano : Nat
  /-- Seconds that local time is ahead. -/
  offset : Int

def offsetLimit : Int := 86400

/-- Second 60 is a leap second. The local time has to exist as well as the point itself. -/
def Fields.instant? (f : Fields) : Option Instant := do
  let day ← f.date.toDay?
  if f.hour < 24 ∧ f.minute < 60 ∧ f.second ≤ 60 ∧ -offsetLimit < f.offset ∧
      f.offset < offsetLimit then
    let leap := f.second = 60
    let second := f.hour * 3600 + f.minute * 60 + (if leap then 59 else f.second)
    let nano := f.nano + (if leap then nanosPerSecond else 0)
    let known ← Instant.ofParts? day second nano
    let shifted := (known.second : Int) - f.offset
    Instant.ofParts? (day + shifted / secondsPerDay) (shifted % secondsPerDay).toNat nano
  else none

/-- A reader of the front of a text, with what is left. -/
abbrev Reader (α : Type) := StateT (List Char) Option α

def blanks : Reader Unit := modify Text.dropBlanks

def char (c : Char) : Reader Unit := fun cs =>
  match cs with
  | first :: rest => if first = c then some ((), rest) else none
  | [] => none

/-- From `least` to `most` digits, as many as there are. -/
def number (least most : Nat) : Reader Nat := fun cs =>
  let digits := (cs.take most).takeWhile Char.isDigit
  if digits.length < least then none
  else (Text.digits? digits).map fun n => (n, cs.drop digits.length)

/-- Decimals after a point, of which nine count. -/
def decimals : Reader Nat := fun cs =>
  match cs with
  | '.' :: rest =>
    let digits := rest.takeWhile Char.isDigit
    let kept := digits.take 9
    (Text.digits? kept).map fun n =>
      (n * Nat.pow 10 (9 - kept.length), rest.dropWhile Char.isDigit)
  | _ => some (0, cs)

/-- The letter between day and time; a blank will do. -/
def divider : Reader Unit := fun cs =>
  match cs with
  | c :: rest => if c = 'T' ∨ c = 't' ∨ c = ' ' then some ((), rest) else none
  | [] => none

def sign : Reader Int := fun cs =>
  match cs with
  | '+' :: rest => some (1, rest)
  | '-' :: rest => some (-1, rest)
  | '−' :: rest => some (-1, rest)
  | _ => none

def minutes : Reader Nat := do
  let n ← number 2 2
  if n < 60 then pure n else failure

/-- The letter Z, or a sign, hours and minutes with `between` in the middle. -/
def offset (between : Reader Unit) : Reader Int := fun cs =>
  match cs with
  | 'Z' :: rest => some (0, rest)
  | 'z' :: rest => some (0, rest)
  | cs => (do
      let s ← sign
      let hours ← number 2 2
      between
      let rest ← minutes
      pure (s * ((hours * 3600 + rest * 60 : Nat) : Int)) : Reader Int) cs

def strictFields : Reader Fields := do
  let year ← number 4 4
  char '-'
  let month ← number 2 2
  char '-'
  let day ← number 2 2
  divider
  let hour ← number 2 2
  char ':'
  let minute ← number 2 2
  char ':'
  let second ← number 2 2
  let nano ← decimals
  let offset ← offset (char ':')
  return { date := ⟨year, month, day⟩, hour, minute, second, nano, offset }

/-- A year with a sign has any number of digits, one without has up to four. -/
def lenientYear : Reader Int := fun cs =>
  let cs := Text.dropBlanks cs
  match cs with
  | '-' :: rest => (number 1 rest.length rest).map fun (n, rest) => (-(n : Int), rest)
  | '+' :: rest => (number 1 rest.length rest).map fun (n, rest) => ((n : Int), rest)
  | cs => (number 1 4 cs).map fun (n, rest) => ((n : Int), rest)

def shortNumber : Reader Nat := do
  blanks
  number 1 2

def spaced (c : Char) : Reader Unit := do
  blanks
  char c

def lenientOffset : Reader Int := fun cs =>
  if Text.sameLetters (String.ofList (cs.take 3)) "UTC" then some (0, cs.drop 3)
  else
    offset (modify fun cs => cs.dropWhile fun c => c = ':' || Text.isBlank c) cs

def lenientFields : Reader Fields := do
  let year ← lenientYear
  spaced '-'
  let month ← shortNumber
  spaced '-'
  let day ← shortNumber
  divider
  let hour ← shortNumber
  spaced ':'
  let minute ← shortNumber
  spaced ':'
  let second ← shortNumber
  let nano ← decimals
  blanks
  let offset ← lenientOffset
  blanks
  return { date := ⟨year, month, day⟩, hour, minute, second, nano, offset }

/-- Reads a whole text with a reader. -/
def whole? (reader : Reader Fields) (text : String) : Option Instant :=
  match reader text.toList with
  | some (fields, []) => fields.instant?
  | _ => none

end TimeText

namespace Instant

/-- Reads fixed widths with an offset. -/
def parse? (text : String) : Option Instant := TimeText.whole? TimeText.strictFields text

def parseLenient? (text : String) : Option Instant :=
  TimeText.whole? TimeText.lenientFields text

/-- Bounds of the milliseconds that a text can give. -/
def leastMillis : Int := -0x8000000000000000

def greatestMillis : Int := 0x7fffffffffffffff

/-- Reads fixed widths, or milliseconds since the origin. -/
def parseStamp? (text : String) : Option Instant :=
  let text := Text.trim text
  match parse? text with
  | some t => some t
  | none => (Text.integer? leastMillis greatestMillis text).bind ofMillis?

end Instant

end Jobyard
