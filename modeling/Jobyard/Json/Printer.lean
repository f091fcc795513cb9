import Jobyard.Json.Number

/-!
Compact JSON texts: no blanks, members in the order of their names, and in strings only quotes,
backslashes and control characters escaped.
-/

namespace Jobyard.Json

def hexDigit (n : Nat) : Char := Nat.digitChar (n % 16)

/-- The written form of one character inside quotes. -/
def escaped (c : Char) : List Char :=
  if c = '"' then ['\\', '"']
  else if c = '\\' then ['\\', '\\']
  else if c = '\n' then ['\\', 'n']
  else if c = '\r' then ['\\', 'r']
  else if c = '\t' then ['\\', 't']
  else if c = '\x08' then ['\\', 'b']
  else if c = '\x0c' then ['\\', 'f']
  else if c.toNat < 0x20 then ['\\', 'u', '0', '0', hexDigit (c.toNat / 16), hexDigit c.toNat]
  else [c]

def quoted (text : String) : List Char :=
  '"' :: (text.toList.flatMap escaped ++ ['"'])

mutual

def chars : Json → List Char
  | .null => ['n', 'u', 'l', 'l']
  | .bool true => ['t', 'r', 'u', 'e']
  | .bool false => ['f', 'a', 'l', 's', 'e']
  | .int n => (toString n).toList
  | .double x => (doubleText x).toList
  | .str text => quoted text
  | .arr [] => ['[', ']']
  | .arr (first :: rest) => '[' :: (chars first ++ moreItems rest)
  | .obj [] => ['\x7b', '\x7d']
  | .obj (first :: rest) => '\x7b' :: (memberChars first ++ moreMembers rest)
termination_by structural value => value

/-- The items after the first one, and the closing bracket. -/
def moreItems : List Json → List Char
  | [] => [']']
  | item :: rest => ',' :: (chars item ++ moreItems rest)
termination_by structural items => items

def moreMembers : List (String × Json) → List Char
  | [] => ['\x7d']
  | member :: rest => ',' :: (memberChars member ++ moreMembers rest)
termination_by structural members => members

def memberChars : String × Json → List Char
  | (name, value) => quoted name ++ ':' :: chars value
termination_by structural member => member

end

def render (value : Json) : String :=
  String.ofList value.chars

end Jobyard.Json
