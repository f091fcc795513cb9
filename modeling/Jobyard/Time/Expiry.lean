import Jobyard.Time.Duration

/-!
Expiry times: a length of time after a point, or the end of the calendar if that is not so far.
-/

namespace Jobyard

def Instant.expiresIn (now : Instant) (length : Duration) : Instant :=
  (length.toSpan?.bind now.plus?).getD .greatest

end Jobyard
