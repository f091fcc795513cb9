import Jobyard.Time.Instant

/-!
Statements for a database server: a text with numbered places, and the values that are sent along
for these places.
-/

namespace Jobyard.Sql

inductive Param
  | null
  | text (value : String)
  | texts (values : List String)
  | int (value : Int)
  /-- A JSON value as text. -/
  | json (text : String)
  /-- Microseconds since 2000-01-01. -/
  | time (micros : Int)
deriving DecidableEq

structure Statement where
  text : String
  params : List Param
deriving DecidableEq

/-- A part of a statement: text as it stands, or a value to be sent along. -/
inductive Piece
  | text (text : String)
  | value (param : Param)

namespace Statement

/-- The text of pieces, with the places numbered from `next` on. -/
def textFrom (next : Nat) : List Piece → String
  | [] => ""
  | .text text :: rest => text ++ textFrom next rest
  | .value _ :: rest => "$" ++ toString next ++ textFrom (next + 1) rest

def valuesOf (pieces : List Piece) : List Param :=
  pieces.filterMap fun piece =>
    match piece with
    | .text _ => none
    | .value param => some param

/-- Puts a statement together. Values never enter its text. -/
def ofPieces (pieces : List Piece) : Statement := ⟨textFrom 1 pieces, valuesOf pieces⟩

end Statement

/-- How many numbers 64 bits tell apart. -/
def range64 : Nat := 0x10000000000000000

/-- A number of 64 bits without sign, sent as one with sign: the upper half becomes negative. -/
def signed64 (n : Nat) : Int :=
  let low := n % range64
  if 2 * low < range64 then low else (low : Int) - range64

/-- The other way round. -/
def unsigned64 (n : Int) : Nat := (n % range64).toNat

/-- 2000-01-01 at midnight, from which servers count. -/
def epoch : Instant := ⟨10957, 0, 0, by decide⟩

namespace Param

/-- Parts of a microsecond are cut off, toward the epoch. -/
def ofInstant (t : Instant) : Param := .time ((t.since epoch).nanos.tdiv 1000)

def ofExpiry : Option Instant → Param
  | none => .null
  | some t => ofInstant t

end Param

def instantOfMicros? (micros : Int) : Option Instant := epoch.plus? ⟨micros * 1000⟩

end Jobyard.Sql
