import Jobyard.Proofs.Document.Spelling
import Jobyard.Proofs.Store.Counter

/-!
Documents and their stored forms. A document that is read as it was written lasts; jobs, queue
entries, lists and hashes always do, sets if their scores are finite, counters and servers if their
numbers are within bounds.
-/

namespace Jobyard

def Document.Lasting {α : Type} [Document α] (document : α) : Prop :=
  Document.decode? (Document.encode document) = some document

theorem Job.lasting (j : Job) : Document.Lasting j := j.spells_encode.decode?

theorem QueueEntry.lasting (e : QueueEntry) : Document.Lasting e := e.decode?_encode

theorem Counter.lasting {c : Counter} (hleast : Json.least64 ≤ c.value)
    (hgreatest : c.value ≤ Json.greatest64) : Document.Lasting c := by
  unfold Document.Lasting
  rw [decode?_encode, Json.int64?_eq_some.mpr ⟨rfl, hleast, hgreatest⟩]
  rfl

theorem ValueList.lasting (l : ValueList) : Document.Lasting l := by
  simp [Document.Lasting, Document.decode?, Document.encode, Record.ofJson?_object,
    Record.defaulted, Record.find?, List.lookup_cons]

theorem FieldMap.lasting (h : FieldMap) : Document.Lasting h := by
  simp [Document.Lasting, Document.decode?, Document.encode, Record.ofJson?_object,
    Record.defaulted, Record.find?, List.lookup_cons]

theorem Server.lasting {s : Server} (h : s.data.workerCount ≤ ServerData.workerLimit) :
    Document.Lasting s :=
  s.spells_encode.decode? h

namespace ScoredSet

def Finite (s : ScoredSet) : Prop := ∀ entry ∈ s.scores.entries, entry.2.isFinite

instance (s : ScoredSet) : Decidable s.Finite :=
  inferInstanceAs (Decidable (∀ entry ∈ s.scores.entries, entry.2.isFinite))

theorem Finite.lasting {s : ScoredSet} (h : s.Finite) : Document.Lasting s := by
  have hscores : Json.dictOf? Json.number? (Json.ofDict encodeScore s.scores) = some s.scores :=
    Json.dictOf?_ofDict fun entry hentry => by simp [encodeScore, h entry hentry, Json.number?]
  simp [Document.Lasting, Document.decode?, Document.encode, Record.ofJson?_object,
    Record.defaulted, Record.find?, List.lookup_cons, hscores]

theorem finite_blank : (FindOrCreate.blank : ScoredSet).Finite := fun _ h => nomatch h

theorem Finite.insert {s : ScoredSet} (h : s.Finite) (member : String) {score : Double}
    (hscore : score.isFinite) : Finite ⟨s.scores.insert member score⟩ := by
  intro entry hentry
  rcases Entries.mem_insert hentry with rfl | hold
  · exact hscore
  · exact h entry hold

theorem Finite.insertMany {s : ScoredSet} (h : s.Finite) {entries : List (String × Double)}
    (hentries : ∀ entry ∈ entries, entry.2.isFinite) : Finite ⟨s.scores.insertMany entries⟩ := by
  induction entries generalizing s with
  | nil => exact h
  | cons first rest ih =>
      exact ih (h.insert first.1 (hentries first List.mem_cons_self)) fun entry hentry =>
        hentries entry (List.mem_cons_of_mem first hentry)

theorem Finite.erase {s : ScoredSet} (h : s.Finite) (member : String) :
    Finite ⟨s.scores.erase member⟩ :=
  fun entry hentry => h entry (Entries.mem_of_mem_erase hentry)

end ScoredSet

namespace Document

variable {α : Type} [Document α] {document : α}

theorem decode_of_decode? {body : Json} (h : decode? body = some document) :
    decode α body = .ok document := by
  rw [decode, h]

/-- What a document is encoded to is one of its written forms, and each of these is read as the
document. -/
structure Survives (Spells : α → Json → Prop) (document : α) : Prop where
  written : Spells document (encode document)
  read : ∀ body, Spells document body → decode α body = .ok document

/-- Each kind of document survives its encoding, and missing optional values also survive the other
way of writing them. Numbers have to be within what their fields hold, and scores finite. -/
theorem kinds_survive :
    (∀ j : Job, Survives Job.Spells j) ∧
      (∀ e : QueueEntry, Survives QueueEntry.Spells e) ∧
      (∀ c : Counter, Json.least64 ≤ c.value → c.value ≤ Json.greatest64 →
        decode Counter (encode c) = .ok c) ∧
      (∀ s : ScoredSet, s.Finite → decode ScoredSet (encode s) = .ok s) ∧
      (∀ l : ValueList, decode ValueList (encode l) = .ok l) ∧
      (∀ h : FieldMap, decode FieldMap (encode h) = .ok h) ∧
      ∀ s : Server, s.data.workerCount ≤ ServerData.workerLimit → Survives Server.Spells s :=
  ⟨fun j => ⟨j.spells_encode, fun _ h => decode_of_decode? h.decode?⟩,
    fun e => ⟨e.spells_encode, fun _ h => decode_of_decode? h.decode?⟩,
    fun _ hleast hgreatest => decode_of_decode? (Counter.lasting hleast hgreatest),
    fun _ hfinite => decode_of_decode? hfinite.lasting,
    fun l => decode_of_decode? l.lasting,
    fun h => decode_of_decode? h.lasting,
    fun s hcount => ⟨s.spells_encode, fun _ h => decode_of_decode? (h.decode? hcount)⟩⟩

namespace Sample

/-- A job that was deleted within the last leap second of the calendar. -/
def job : Job where
  invocation := ⟨"Mailer", "send", "[]", "[]"⟩
  parameters := Dict.ofList [("culture", "de")]
  createdAt := .least
  state := none
  history := [⟨.named "Deleted", ⟨Instant.greatestDay, 86399, 1500000000, by decide⟩⟩]

def jobForm : Json :=
  .object [("invocation_data", job.invocation.encode), ("parameters", .ofDict .str job.parameters),
    ("created_at", .ofInstant .least),
    ("history", .arr [.object [("state_name", .str "Deleted"), ("data", .ofDict .str ∅),
      ("created_at", .ofInstant ⟨Instant.greatestDay, 86399, 1500000000, by decide⟩),
      ("reason", .null)]]),
    ("state", .null)]

theorem spells_jobForm : job.Spells jobForm :=
  ⟨_, _, .cons ⟨_, .null, rfl⟩ .nil, .null, rfl⟩

def scores : ScoredSet := ⟨Dict.ofList [("a", .zero), ("b", .ofMagnitude true 0)]⟩

def server : Server := ⟨.greatest, ⟨ServerData.workerLimit, ["default"], none⟩⟩

end Sample

theorem kinds_survive_at_bounds :
    decode Job Sample.jobForm = .ok Sample.job ∧
      decode Counter (encode (⟨Json.least64⟩ : Counter)) = .ok ⟨Json.least64⟩ ∧
      Sample.scores.Finite ∧ decode ScoredSet (encode Sample.scores) = .ok Sample.scores ∧
      Survives Server.Spells Sample.server := by
  obtain ⟨hjob, -, hcounter, hset, -, -, hserver⟩ := kinds_survive
  have hfinite : Sample.scores.Finite := by decide
  exact ⟨(hjob Sample.job).read _ Sample.spells_jobForm, hcounter _ (by decide) (by decide),
    hfinite, hset _ hfinite, hserver _ (by decide)⟩

end Document

end Jobyard
