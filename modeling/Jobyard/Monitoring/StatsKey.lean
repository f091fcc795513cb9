import Jobyard.Time.Text

/-!
Keys of the counters that count finished jobs by day and by hour.
-/

namespace Jobyard.StatsKey

def daily (kind : String) (day : Date) : String :=
  "stats:" ++ kind ++ ":" ++ TimeText.date day

def hourly (kind : String) (time : Instant) : String :=
  "stats:" ++ kind ++ ":" ++ TimeText.date time.date ++ "-" ++ Text.padded 2 time.hour

end Jobyard.StatsKey
