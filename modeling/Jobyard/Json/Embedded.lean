import Jobyard.Json.Reader

/-!
Texts inside texts. A value may be written as a JSON text of its own, as the only member of an
object and under a name kept for this; the object is then read as that value. After any other
first name the kept name is a name as any other.
-/

namespace Jobyard.Json

/-- The name of the member that holds the text of a value. -/
def embeddedName : String := "$serde_json::private::RawValue"

/-- Reads a text with fewer than `levels` texts inside each other. -/
def parseLevels? : Nat → Nat → String → Option Json
  | 0, _, _ => none
  | levels + 1, limit, text =>
    readWith? (some ⟨embeddedName, parseLevels? levels depthLimit⟩) limit text

/-- Reads a text whose own containers are nested at most `limit` deep. A text is longer than
those inside it, so its length bounds their levels. -/
def parseWithin? (limit : Nat) (text : String) : Option Json :=
  parseLevels? (text.length + 1) limit text

def parse? (text : String) : Option Json :=
  parseWithin? depthLimit text

/-- Reads a list that is written as one, not as an object that stands for it. -/
def parseItems? (text : String) : Option (List Json) :=
  if (text.toList.dropWhile isSpace).head? = some '[' then (parse? text).bind items? else none

end Jobyard.Json
