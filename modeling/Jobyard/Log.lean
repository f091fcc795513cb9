import Jobyard.Text.Blank
import Jobyard.Text.Caseless

/-!
The form of log lines, chosen by the variable `JOBDOC_LOG_FORMAT`, and the rule that the log of a
process is set up once.
-/

namespace Jobyard

inductive LogFormat
  | json
  | pretty
deriving DecidableEq, Inhabited

namespace LogFormat

def standard : LogFormat := .json

def text : LogFormat → String
  | .json => "json"
  | .pretty => "pretty"

/-- Only `pretty` selects that form, in any letters and with blanks around it. -/
def ofVariable (value : Option String) : LogFormat :=
  match value with
  | some raw => if Text.sameLetters (Text.trim raw) "pretty" then .pretty else .json
  | none => .json

end LogFormat

/-- The log of a process, once it is set up. -/
structure LogSetup where
  installed : Option LogFormat
deriving DecidableEq

/-- Sets the log up unless that was done before, and says whether it did. -/
def LogSetup.install (s : LogSetup) (format : LogFormat) : Bool × LogSetup :=
  match s.installed with
  | some _ => (false, s)
  | none => (true, ⟨some format⟩)

end Jobyard
