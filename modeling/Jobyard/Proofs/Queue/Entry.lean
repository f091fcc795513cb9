import Jobyard.Document.QueueEntry
import Jobyard.Proofs.Dict
import Jobyard.Proofs.Time.Instant
import Jobyard.Proofs.Time.Text

/-!
Queue entries and their stored form. An entry survives its encoding, so that what one consumer
writes is what the next one reads.
-/

namespace Jobyard

theorem Json.instant?_ofInstant (t : Instant) : (Json.ofInstant t).instant? = some t := by
  simp only [Json.instant?, Json.ofInstant, Json.str?, Option.bind_some,
    Instant.parseLenient?_text]

theorem Record.ofJson?_object (names : List String) (members : List (String × Json)) :
    Record.ofJson? names (Json.object members) =
      some ⟨names.map fun name => (name, members.reverse.lookup name)⟩ := by
  unfold Json.object Record.ofJson?
  simp only [Entries.find?_ofList]

namespace QueueEntry

theorem decode?_members (jobId queue : String) (fetchedAt : Json) :
    (Document.decode? (Json.object [("job_id", .str jobId), ("queue", .str queue),
      ("fetched_at", fetchedAt)]) : Option QueueEntry) =
      (match fetchedAt with
        | .null => some none
        | value => value.instant?.map some).bind fun time => some ⟨⟨jobId⟩, queue, time⟩ := by
  simp only [Document.decode?, Record.ofJson?_object]
  cases fetchedAt <;> rfl

theorem decode?_encode (e : QueueEntry) :
    Document.decode? (Document.encode e) = some e := by
  obtain ⟨jobId, queue, fetchedAt⟩ := e
  refine (decode?_members jobId.text queue _).trans ?_
  cases fetchedAt with
  | none => rfl
  | some time =>
      change (((Json.ofInstant time).instant?).map some).bind _ = _
      rw [Json.instant?_ofInstant]
      rfl

end QueueEntry

end Jobyard
