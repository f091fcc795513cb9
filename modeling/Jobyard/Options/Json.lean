import Jobyard.Document.Record
import Jobyard.Options.Environment

/-!
Options as JSON. Fields may be missing and then keep their defaults.
-/

namespace Jobyard.Options

def encodeDuration (d : Duration) : Json :=
  .object [("secs", .int d.seconds), ("nanos", .int d.subsecond)]

/-- Two numbers by name or by position, no more and no fewer. Nanoseconds beyond a second carry,
but not out of 64 bits. -/
def decodeDuration? (value : Json) : Option Duration := do
  let (seconds, nanos) ← (
    match value with
    | .obj [("nanos", nanos), ("secs", seconds)] => some (seconds, nanos)
    | .arr [seconds, nanos] => some (seconds, nanos)
    | _ => none)
  let seconds ← seconds.natWithin? limit64
  let nanos ← nanos.natWithin? limit32
  if limit64 < seconds + nanos / nanosPerSecond then none else some (.ofParts seconds nanos)

def encode (o : Options) : Json :=
  .object [("queue_poll_interval", encodeDuration o.pollInterval),
    ("invisibility_timeout", encodeDuration o.invisibility),
    ("expiration_check_interval", encodeDuration o.checkInterval),
    ("expiration_batch_size", .int o.batchSize),
    ("database_url", .ofOption .str o.databaseUrl),
    ("max_connections", .int o.maxConnections),
    ("queues", .ofTexts o.queues)]

def decode? (value : Json) : Option Options := do
  let r ← Record.ofJson? ["queue_poll_interval", "invisibility_timeout",
    "expiration_check_interval", "expiration_batch_size", "database_url", "max_connections",
    "queues"] value
  return {
    pollInterval := ← r.defaulted "queue_poll_interval" standard.pollInterval decodeDuration?
    invisibility := ← r.defaulted "invisibility_timeout" standard.invisibility decodeDuration?
    checkInterval := ← r.defaulted "expiration_check_interval" standard.checkInterval
      decodeDuration?
    batchSize := ← r.defaulted "expiration_batch_size" standard.batchSize
      (Json.natWithin? limit64)
    databaseUrl := ← r.optional "database_url" Json.str?
    maxConnections := ← r.defaulted "max_connections" standard.maxConnections
      (Json.natWithin? limit32)
    queues := ← r.defaulted "queues" standard.queues (Json.listOf? Json.str?) }

end Jobyard.Options
