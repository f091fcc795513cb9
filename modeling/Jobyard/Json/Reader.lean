import Jobyard.Json.Number

/-!
Strict reading of JSON texts, one character at a time. A reading state holds the containers that
are still open and what may come next; there is no state after a character that may not come.
-/

namespace Jobyard.Json

def isSpace (c : Char) : Bool :=
  c = ' ' || c = '\t' || c = '\n' || c = '\r'

def hexValue? (c : Char) : Option Nat :=
  if '0' ≤ c ∧ c ≤ '9' then some (c.toNat - '0'.toNat)
  else if 'a' ≤ c ∧ c ≤ 'f' then some (c.toNat - 'a'.toNat + 10)
  else if 'A' ≤ c ∧ c ≤ 'F' then some (c.toNat - 'A'.toNat + 10)
  else none

/-- Where the reading of a string stands between two characters. -/
inductive Escape
  | outside
  | begun
  /-- Inside four base 16 digits; `high` is a first half that waits for its second. -/
  | digits (high : Option Nat) (count value : Nat)
  | half (high : Nat)
  | halfBegun (high : Nat)

/-- The characters of a string read so far, the last one first. -/
structure Quotation where
  text : List Char
  escape : Escape

namespace Quotation

def empty : Quotation := ⟨[], .outside⟩

def push (q : Quotation) (c : Char) : Quotation := ⟨c :: q.text, .outside⟩

/-- A code unit after all its digits: one half of a pair never stands alone. -/
def unit? (q : Quotation) (high : Option Nat) (value : Nat) : Option Quotation :=
  match high with
  | none =>
    if 0xDC00 ≤ value ∧ value ≤ 0xDFFF then none
    else if 0xD800 ≤ value ∧ value ≤ 0xDBFF then some { q with escape := .half value }
    else some (q.push (Char.ofNat value))
  | some first =>
    if 0xDC00 ≤ value ∧ value ≤ 0xDFFF then
      some (q.push (Char.ofNat (0x10000 + (first - 0xD800) * 0x400 + (value - 0xDC00))))
    else none

def plain? (c : Char) : Option Char :=
  if c = '"' then some '"'
  else if c = '\\' then some '\\'
  else if c = '/' then some '/'
  else if c = 'b' then some '\x08'
  else if c = 'f' then some '\x0c'
  else if c = 'n' then some '\n'
  else if c = 'r' then some '\r'
  else if c = 't' then some '\t'
  else none

/-- Takes a character that does not end the string. -/
def step? (q : Quotation) (c : Char) : Option Quotation :=
  match q.escape with
  | .outside =>
    if c = '\\' then some { q with escape := .begun }
    else if c.toNat < 0x20 then none
    else some (q.push c)
  | .begun =>
    if c = 'u' then some { q with escape := .digits none 0 0 }
    else (plain? c).map q.push
  | .digits high count value => do
    let digit ← hexValue? c
    if count = 3 then q.unit? high (16 * value + digit)
    else some { q with escape := .digits high (count + 1) (16 * value + digit) }
  | .half high => if c = '\\' then some { q with escape := .halfBegun high } else none
  | .halfBegun high =>
    if c = 'u' then some { q with escape := .digits (some high) 0 0 } else none

def isOutside (q : Quotation) : Bool :=
  match q.escape with
  | .outside => true
  | _ => false

def result (q : Quotation) : String := String.ofList q.text.reverse

end Quotation

/-- An open container, its finished parts newest first. -/
inductive Frame
  | items (done : List Json)
  | members (done : List (String × Json)) (name : String)
  /-- An object that stands for the value of a text. -/
  | embedded

/-- What is being read, or what may come next. -/
inductive Stage
  | value (orClose : Bool)
  /-- Only a string may come. -/
  | quoted
  | name (done : List (String × Json)) (orClose : Bool)
  | text (q : Quotation)
  | nameText (done : List (String × Json)) (q : Quotation)
  | colon (done : List (String × Json)) (name : String)
  | number (written : List Char)
  | word (rest : List Char) (value : Json)
  | after (value : Json)

structure Reading where
  frames : List Frame
  stage : Stage

/-- Texts inside a text: an object that begins with a member of this name stands for the value
that `read` finds in the member. -/
structure Embedding where
  name : String
  read : String → Option Json

namespace Reading

def start : Reading := ⟨[], .value false⟩

def isNumberChar (c : Char) : Bool :=
  c.isDigit || c = '-' || c = '+' || c = '.' || c = 'e' || c = 'E'

/-- The character that begins a value; at most `limit` containers may be open. -/
def begin? (limit : Nat) (frames : List Frame) (c : Char) : Option Reading :=
  if c = '"' then some ⟨frames, .text .empty⟩
  else if c = '-' ∨ c.isDigit then some ⟨frames, .number [c]⟩
  else if c = 'n' then some ⟨frames, .word ['u', 'l', 'l'] .null⟩
  else if c = 't' then some ⟨frames, .word ['r', 'u', 'e'] (.bool true)⟩
  else if c = 'f' then some ⟨frames, .word ['a', 'l', 's', 'e'] (.bool false)⟩
  else if limit ≤ frames.length then none
  else if c = '[' then some ⟨.items [] :: frames, .value true⟩
  else if c = '\x7b' then some ⟨frames, .name [] true⟩
  else none

/-- The character after a finished value. -/
def proceed? (embedding : Option Embedding) (frames : List Frame) (value : Json) (c : Char) :
    Option Reading :=
  if isSpace c then some ⟨frames, .after value⟩
  else
    match frames with
    | [] => none
    | .items done :: outer =>
      if c = ',' then some ⟨.items (value :: done) :: outer, .value false⟩
      else if c = ']' then some ⟨outer, .after (.arr (value :: done).reverse)⟩
      else none
    | .members done name :: outer =>
      if c = ',' then some ⟨outer, .name ((name, value) :: done) false⟩
      else if c = '\x7d' then some ⟨outer, .after (.object ((name, value) :: done).reverse)⟩
      else none
    | .embedded :: outer =>
      if c = '\x7d' then do
        let text ← value.str?
        let value ← (← embedding).read text
        some ⟨outer, .after value⟩
      else none

def step? (embedding : Option Embedding) (limit : Nat) (r : Reading) (c : Char) :
    Option Reading :=
  match r.stage with
  | .value orClose =>
    if isSpace c then some r
    else if orClose && c = ']' then some ⟨r.frames.drop 1, .after (.arr [])⟩
    else begin? limit r.frames c
  | .quoted =>
    if isSpace c then some r
    else if c = '"' then some ⟨r.frames, .text .empty⟩
    else none
  | .name done orClose =>
    if isSpace c then some r
    else if orClose && c = '\x7d' then some ⟨r.frames, .after (.obj [])⟩
    else if c = '"' then some ⟨r.frames, .nameText done .empty⟩
    else none
  | .text q =>
    if c = '"' && q.isOutside then some ⟨r.frames, .after (.str q.result)⟩
    else (q.step? c).map fun q => ⟨r.frames, .text q⟩
  | .nameText done q =>
    if c = '"' && q.isOutside then some ⟨r.frames, .colon done q.result⟩
    else (q.step? c).map fun q => ⟨r.frames, .nameText done q⟩
  | .colon done name =>
    if isSpace c then some r
    else if c = ':' then
      if done.isEmpty && embedding.any (·.name == name) then
        some ⟨.embedded :: r.frames, .quoted⟩
      else some ⟨.members done name :: r.frames, .value false⟩
    else none
  | .number written =>
    if isNumberChar c then some ⟨r.frames, .number (c :: written)⟩
    else do
      let value ← readNumber? written.reverse
      proceed? embedding r.frames value c
  | .word rest value =>
    match rest with
    | [] => proceed? embedding r.frames value c
    | expected :: rest =>
      if c = expected then some ⟨r.frames, .word rest value⟩ else none
  | .after value => proceed? embedding r.frames value c

/-- The value of a text that ends here. -/
def finish? (r : Reading) : Option Json :=
  match r.frames, r.stage with
  | [], .number written => readNumber? written.reverse
  | [], .word [] value => some value
  | [], .after value => some value
  | _, _ => none

end Reading

/-- Reads a text whose containers are nested at most `limit` deep. -/
def readWith? (embedding : Option Embedding) (limit : Nat) (text : String) : Option Json :=
  (text.toList.foldlM (Reading.step? embedding limit) Reading.start).bind Reading.finish?

/-- The nesting that stored texts may have. -/
def depthLimit : Nat := 127

/-- Reads a text in which no object stands for another value. -/
def parsePlain? (text : String) : Option Json :=
  readWith? none depthLimit text

end Jobyard.Json
