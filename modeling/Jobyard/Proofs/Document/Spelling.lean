import Jobyard.Document.Collection
import Jobyard.Document.Job
import Jobyard.Document.Server
import Jobyard.Proofs.Queue.Entry
import Mathlib.Data.List.Forall2

/-!
Written forms of documents. A member for an optional value may be left out or be null when there is
no value, so a document has several forms; each of them is read as that document.
-/

namespace Jobyard

namespace Entries

variable {κ α : Type} [Ord κ]

theorem insert_of_last [Std.OrientedOrd κ] {key : κ} {value : α} {entries : List (κ × α)}
    (h : ∀ entry ∈ entries, compare entry.1 key = .lt) :
    insert key value entries = entries ++ [(key, value)] := by
  induction entries with
  | nil => rfl
  | cons first rest ih =>
      obtain ⟨k, v⟩ := first
      have hgt : compare key k = .gt := Std.OrientedCmp.gt_of_lt (h (k, v) List.mem_cons_self)
      simp only [insert, hgt, List.cons_append]
      rw [ih fun entry hentry => h entry (List.mem_cons_of_mem _ hentry)]

theorem foldl_insert_of_sorted [Std.OrientedOrd κ] {entries done : List (κ × α)}
    (h : Sorted (done ++ entries)) :
    entries.foldl (fun done entry => insert entry.1 entry.2 done) done = done ++ entries := by
  induction entries generalizing done with
  | nil => exact (List.append_nil done).symm
  | cons first rest ih =>
      have hlast : ∀ entry ∈ done, compare entry.1 first.1 = .lt := fun entry hentry =>
        (List.pairwise_append.mp h).2.2 entry hentry first List.mem_cons_self
      rw [List.append_cons] at h ⊢
      rw [List.foldl_cons, insert_of_last hlast]
      exact ih h

end Entries

theorem Dict.ofList_entries {κ α : Type} [Ord κ] [Std.TransOrd κ] [Std.LawfulEqOrd κ]
    (d : Dict κ α) : Dict.ofList d.entries = d :=
  Dict.ext (Entries.foldl_insert_of_sorted d.sorted)

namespace Json

theorem mapM_map {α β : Type} {write : α → β} {read : β → Option α} {xs : List α}
    (h : ∀ x ∈ xs, read (write x) = some x) : (xs.map write).mapM read = some xs := by
  induction xs with
  | nil => rfl
  | cons x rest ih =>
      rw [List.map_cons, List.mapM_cons, h x List.mem_cons_self,
        ih fun y hy => h y (List.mem_cons_of_mem x hy)]
      rfl

theorem listOf?_arr {α : Type} {write : α → Json} {read : Json → Option α} {xs : List α}
    (h : ∀ x ∈ xs, read (write x) = some x) : listOf? read (.arr (xs.map write)) = some xs :=
  mapM_map h

@[simp] theorem listOf?_ofTexts (texts : List String) :
    listOf? str? (ofTexts texts) = some texts :=
  listOf?_arr fun _ _ => rfl

theorem dictOf?_ofDict {α : Type} {write : α → Json} {read : Json → Option α} {d : Dict String α}
    (h : ∀ entry ∈ d.entries, read (write entry.2) = some entry.2) :
    dictOf? read (ofDict write d) = some d := by
  have hentries : (d.entries.map fun entry => (entry.1, write entry.2)).mapM
      (fun member => (read member.2).map fun value => (member.1, value)) = some d.entries := by
    apply mapM_map
    intro entry hentry
    simp only [h entry hentry, Option.map_some]
  simp only [dictOf?, ofDict, hentries]
  exact congrArg some (Dict.ofList_entries d)

@[simp] theorem dictOf?_texts (d : Dict String String) : dictOf? str? (ofDict .str d) = some d :=
  dictOf?_ofDict fun _ _ => rfl

theorem natWithin?_int {limit n : Nat} (h : n ≤ limit) :
    natWithin? limit (.int n) = some n := by
  have hbounds : (0 : Int) ≤ n ∧ (n : Int) ≤ limit := ⟨Int.natCast_nonneg n, Int.ofNat_le.mpr h⟩
  simp only [natWithin?, intWithin?, if_pos hbounds, Option.map_some, Int.toNat_natCast]

@[simp] theorem isNull_null : Json.null.isNull = true := rfl

@[simp] theorem isNull_str (text : String) : (Json.str text).isNull = false := rfl

@[simp] theorem isNull_ofInstant (t : Instant) : (ofInstant t).isNull = false := rfl

end Json

namespace Record

theorem optional_eq {α : Type} (r : Record) (name : String) (read : Json → Option α) :
    r.optional name read =
      (r.find? name).elim (some none) fun value =>
        if value.isNull then some none else (read value).map some := by
  unfold optional
  cases r.find? name with
  | none => rfl
  | some value => cases value <;> rfl

end Record

namespace Json

/-- The members that may stand for an optional value. -/
inductive Spelled {α : Type} (name : String) (Spells : α → Json → Prop) :
    Option α → List (String × Json) → Prop
  | omitted : Spelled name Spells none []
  | null : Spelled name Spells none [(name, .null)]
  | value {x : α} {written : Json} (h : Spells x written) :
      Spelled name Spells (some x) [(name, written)]

theorem listOf?_of_forall₂ {α : Type} {Spells : α → Json → Prop} {read : Json → Option α}
    (hread : ∀ x written, Spells x written → read written = some x) {xs : List α}
    {items : List Json} (h : List.Forall₂ Spells xs items) :
    listOf? read (.arr items) = some xs := by
  change items.mapM read = some xs
  induction h with
  | nil => rfl
  | cons hfirst _ ih =>
      rw [List.mapM_cons, hread _ _ hfirst, ih]
      rfl

def SpellsText (text : String) (written : Json) : Prop := written = .str text

def SpellsInstant (t : Instant) (written : Json) : Prop := written = .ofInstant t

end Json

@[simp] theorem InvocationData.decode?_encode (d : InvocationData) :
    decode? d.encode = some d := by
  simp only [decode?, encode, Record.ofJson?_object]
  rfl

namespace JobState

def Spells (s : JobState) (body : Json) : Prop :=
  ∃ reason, Json.Spelled "reason" Json.SpellsText s.reason reason ∧
    body = .object (("name", .str s.name) :: ("data", .ofDict .str s.data) :: reason)

theorem spells_encode (s : JobState) : s.Spells s.encode := by
  obtain ⟨name, reason, data⟩ := s
  cases reason with
  | none => exact ⟨[], .omitted, rfl⟩
  | some text => exact ⟨_, .value rfl, rfl⟩

variable {s : JobState} {body : Json} (h : s.Spells body)
include h

theorem Spells.isNull : body.isNull = false := by
  obtain ⟨_, _, rfl⟩ := h
  rfl

theorem Spells.decode? : JobState.decode? body = some s := by
  obtain ⟨name, reason, data⟩ := s
  obtain ⟨members, hreason, rfl⟩ := h
  rcases hreason with _ | _ | ⟨rfl⟩ <;>
    simp [JobState.decode?, Record.ofJson?_object, Record.required, Record.defaulted,
      Record.optional_eq, Record.find?, List.lookup_cons, Json.str?]

end JobState

namespace HistoryEntry

def Spells (e : HistoryEntry) (body : Json) : Prop :=
  ∃ reason, Json.Spelled "reason" Json.SpellsText e.state.reason reason ∧
    body = .object (("state_name", .str e.state.name) :: ("data", .ofDict .str e.state.data) ::
      ("created_at", .ofInstant e.createdAt) :: reason)

theorem spells_encode (e : HistoryEntry) : e.Spells e.encode := by
  obtain ⟨⟨name, reason, data⟩, createdAt⟩ := e
  cases reason with
  | none => exact ⟨[], .omitted, rfl⟩
  | some text => exact ⟨_, .value rfl, rfl⟩

theorem Spells.decode? {e : HistoryEntry} {body : Json} (h : e.Spells body) :
    HistoryEntry.decode? body = some e := by
  obtain ⟨⟨name, reason, data⟩, createdAt⟩ := e
  obtain ⟨members, hreason, rfl⟩ := h
  rcases hreason with _ | _ | ⟨rfl⟩ <;>
    simp [HistoryEntry.decode?, Record.ofJson?_object, Record.required, Record.defaulted,
      Record.optional_eq, Record.find?, List.lookup_cons, Json.str?, Json.instant?_ofInstant]

end HistoryEntry

namespace Job

def Spells (j : Job) (body : Json) : Prop :=
  ∃ history state, List.Forall₂ HistoryEntry.Spells j.history history ∧
    Json.Spelled "state" JobState.Spells j.state state ∧
    body = .object (("invocation_data", j.invocation.encode) ::
      ("parameters", .ofDict .str j.parameters) :: ("created_at", .ofInstant j.createdAt) ::
      ("history", .arr history) :: state)

theorem spells_encode (j : Job) : j.Spells j.encode := by
  obtain ⟨invocation, parameters, createdAt, state, history⟩ := j
  have hhistory : List.Forall₂ HistoryEntry.Spells history (history.map HistoryEntry.encode) := by
    rw [List.forall₂_map_right_iff, List.forall₂_same]
    exact fun e _ => e.spells_encode
  cases state with
  | none => exact ⟨_, [], hhistory, .omitted, rfl⟩
  | some s => exact ⟨_, _, hhistory, .value s.spells_encode, rfl⟩

theorem Spells.decode? {j : Job} {body : Json} (h : j.Spells body) : Job.decode? body = some j := by
  obtain ⟨invocation, parameters, createdAt, state, history⟩ := j
  obtain ⟨entries, members, hentries, hstate, rfl⟩ := h
  have hhistory : Json.listOf? HistoryEntry.decode? (.arr entries) = some history :=
    Json.listOf?_of_forall₂ (fun _ _ hspells => hspells.decode?) hentries
  cases hstate with
  | omitted =>
      simp [Job.decode?, Record.ofJson?_object, Record.required, Record.defaulted,
        Record.optional_eq, Record.find?, List.lookup_cons, Json.instant?_ofInstant, hhistory]
  | null =>
      simp [Job.decode?, Record.ofJson?_object, Record.required, Record.defaulted,
        Record.optional_eq, Record.find?, List.lookup_cons, Json.instant?_ofInstant, hhistory]
  | value hwritten =>
      simp [Job.decode?, Record.ofJson?_object, Record.required, Record.defaulted,
        Record.optional_eq, Record.find?, List.lookup_cons, Json.instant?_ofInstant, hhistory,
        hwritten.isNull, hwritten.decode?]

end Job

namespace QueueEntry

def Spells (e : QueueEntry) (body : Json) : Prop :=
  ∃ fetchedAt, Json.Spelled "fetched_at" Json.SpellsInstant e.fetchedAt fetchedAt ∧
    body = .object (("job_id", .str e.jobId.text) :: ("queue", .str e.queue) :: fetchedAt)

theorem spells_encode (e : QueueEntry) : e.Spells (Document.encode e) := by
  obtain ⟨jobId, queue, fetchedAt⟩ := e
  cases fetchedAt with
  | none => exact ⟨_, .null, rfl⟩
  | some time => exact ⟨_, .value rfl, rfl⟩

theorem Spells.decode? {e : QueueEntry} {body : Json} (h : e.Spells body) :
    (Document.decode? body : Option QueueEntry) = some e := by
  obtain ⟨jobId, queue, fetchedAt⟩ := e
  obtain ⟨members, hfetched, rfl⟩ := h
  rcases hfetched with _ | _ | ⟨rfl⟩ <;>
    simp [Document.decode?, Record.ofJson?_object, Record.required, Record.optional_eq,
      Record.find?, List.lookup_cons, Json.str?, Json.instant?_ofInstant]

end QueueEntry

namespace ServerData

def Spells (d : ServerData) (body : Json) : Prop :=
  ∃ startedAt, Json.Spelled "started_at" Json.SpellsInstant d.startedAt startedAt ∧
    body = .object (("worker_count", .int d.workerCount) :: ("queues", .ofTexts d.queues) ::
      startedAt)

theorem spells_encode (d : ServerData) : d.Spells d.encode := by
  obtain ⟨workerCount, queues, startedAt⟩ := d
  cases startedAt with
  | none => exact ⟨_, .null, rfl⟩
  | some time => exact ⟨_, .value rfl, rfl⟩

theorem Spells.decode? {d : ServerData} {body : Json} (h : d.Spells body)
    (hcount : d.workerCount ≤ workerLimit) : ServerData.decode? body = some d := by
  obtain ⟨workerCount, queues, startedAt⟩ := d
  obtain ⟨members, hstarted, rfl⟩ := h
  rcases hstarted with _ | _ | ⟨rfl⟩ <;>
    simp [ServerData.decode?, Record.ofJson?_object, Record.required, Record.defaulted,
      Record.optional_eq, Record.find?, List.lookup_cons, Json.natWithin?_int hcount,
      Json.instant?_ofInstant]

end ServerData

namespace Server

def Spells (s : Server) (body : Json) : Prop :=
  ∃ data, s.data.Spells data ∧
    body = .object [("last_heartbeat", .ofInstant s.lastHeartbeat), ("data", data)]

theorem spells_encode (s : Server) : s.Spells (Document.encode s) :=
  ⟨_, s.data.spells_encode, rfl⟩

theorem Spells.decode? {s : Server} {body : Json} (h : s.Spells body)
    (hcount : s.data.workerCount ≤ ServerData.workerLimit) :
    (Document.decode? body : Option Server) = some s := by
  obtain ⟨data, hdata, rfl⟩ := h
  simp [Document.decode?, Record.ofJson?_object, Record.required, Record.defaulted, Record.find?,
    List.lookup_cons, Json.instant?_ofInstant, hdata.decode? hcount]

end Server

end Jobyard
