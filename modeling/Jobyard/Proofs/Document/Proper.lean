import Jobyard.Proofs.Document.RoundTrip
import Jobyard.Proofs.Store.Answer
import Jobyard.Proofs.Store.Rewrite

/-!
Stores in which documents stay readable. A proper body of a collection is the form of a document
that may be stored there; proper writes keep all bodies of a store proper.
-/

namespace Jobyard

/-- Kinds of documents of which only some may be stored; those are read as they were written. -/
class Storable (α : Type) [Document α] where
  Valid : α → Prop
  eq_of_decode : ∀ {document found : α}, Valid document →
    Document.decode? (Document.encode document) = some found → found = document

theorem Document.Lasting.eq_of_decode {α : Type} [Document α] {document found : α}
    (h : Lasting document)
    (hfound : Document.decode? (Document.encode document) = some found) : found = document :=
  Option.some.inj (hfound.symm.trans h)

instance : Storable Job := ⟨fun _ => True, fun _ h => (Job.lasting _).eq_of_decode h⟩

instance : Storable QueueEntry := ⟨fun _ => True, fun _ h => (QueueEntry.lasting _).eq_of_decode h⟩

instance : Storable Counter := ⟨fun _ => True, fun _ h => Counter.eq_of_decode?_encode h⟩

instance : Storable ScoredSet := ⟨ScoredSet.Finite, fun hfinite h => hfinite.lasting.eq_of_decode h⟩

instance : Storable ValueList := ⟨fun _ => True, fun _ h => (ValueList.lasting _).eq_of_decode h⟩

instance : Storable FieldMap := ⟨fun _ => True, fun _ h => (FieldMap.lasting _).eq_of_decode h⟩

instance : Storable Server where
  Valid s := s.data.workerCount ≤ ServerData.workerLimit
  eq_of_decode hworkers h := (Server.lasting hworkers).eq_of_decode h

structure Shape where
  collection : String
  Fits : Json → Prop

namespace Shape

def of (α : Type) [Document α] [Storable α] : Shape where
  collection := Document.collection α
  Fits body := ∃ document : α, Storable.Valid document ∧ body = Document.encode document

def all : List Shape :=
  [of Job, of QueueEntry, of Counter, of ScoredSet, of ValueList, of FieldMap, of Server]

def ofCollection? (collection : String) : Option Shape :=
  all.find? fun shape => shape.collection = collection

def Known (α : Type) [Document α] [Storable α] : Prop :=
  ofCollection? (Document.collection α) = some (of α)

theorem known_job : Known Job := rfl

theorem known_queueEntry : Known QueueEntry := rfl

theorem known_counter : Known Counter := rfl

theorem known_scoredSet : Known ScoredSet := rfl

theorem known_valueList : Known ValueList := rfl

theorem known_fieldMap : Known FieldMap := rfl

theorem known_server : Known Server := rfl

end Shape

def Proper (id : DocId) (body : Json) : Prop :=
  ∀ shape, Shape.ofCollection? id.collection = some shape → shape.Fits body

section Kinds

variable {α : Type} [Document α] [Storable α] {id : DocId} {body : Json}

theorem proper_iff (hknown : Shape.Known α) (hid : id.collection = Document.collection α) :
    Proper id body ↔ ∃ document : α, Storable.Valid document ∧ body = Document.encode document := by
  unfold Proper
  rw [hid, show Shape.ofCollection? _ = _ from hknown]
  exact ⟨fun h => h _ rfl, fun h shape hshape => Option.some.inj hshape ▸ h⟩

theorem proper_encode (hknown : Shape.Known α) (hid : id.collection = Document.collection α)
    {document : α} (hvalid : Storable.Valid document) : Proper id (Document.encode document) :=
  (proper_iff hknown hid).mpr ⟨document, hvalid, rfl⟩

theorem Proper.valid (h : Proper id body) (hknown : Shape.Known α)
    (hid : id.collection = Document.collection α) {found : α}
    (hfound : Document.decode? body = some found) : Storable.Valid found := by
  obtain ⟨document, hvalid, rfl⟩ := (proper_iff hknown hid).mp h
  rwa [Storable.eq_of_decode hvalid hfound]

end Kinds

theorem proper_counter {id : DocId} {body : Json}
    (hid : id.collection = Document.collection Counter) :
    Proper id body ↔ ∃ total, body = Document.encode (Counter.mk total) := by
  rw [proper_iff Shape.known_counter hid]
  exact ⟨fun ⟨c, _, hbody⟩ => ⟨c.value, hbody⟩, fun ⟨total, hbody⟩ => ⟨⟨total⟩, trivial, hbody⟩⟩

def Write.IsProper : Write → Prop
  | .put id body .. => Proper id body
  | .delete .. => True
  | .increment id field .. =>
    id.collection = Document.collection Counter ∧ field = Counter.field

namespace Memory

def IsProper (m : Memory) : Prop := ∀ id d, m.find? id = some d → Proper id d.body

variable {m next : Memory}

theorem isProper_empty : empty.IsProper := fun _ _ h => nomatch h

theorem IsProper.of_kept (h : m.IsProper)
    (hkept : ∀ id, next.find? id = m.find? id ∨ next.find? id = none) : next.IsProper := by
  intro id d hfound
  rcases hkept id with hsame | hnone
  · exact h id d (hsame ▸ hfound)
  · rw [hnone] at hfound
    cases hfound

theorem IsProper.write (h : m.IsProper) {w : Write} (hw : w.IsProper)
    (hwrite : m.write w = .ok next) : next.IsProper := by
  obtain ⟨document, houtcome, hself, hothers⟩ := write_eq_ok hwrite
  intro id d hfound
  by_cases hid : id = w.id
  · subst hid
    rw [hself] at hfound
    subst hfound
    cases w with
    | put id body expiresAt expected =>
        obtain ⟨put, hput, rfl, _⟩ := outcome_put houtcome
        cases hput
        exact hw
    | delete id expected => exact nomatch outcome_delete houtcome
    | increment id field delta expiresAt =>
        obtain ⟨hcounter, rfl⟩ := hw
        obtain ⟨sum, hsum, hadded, _⟩ := outcome_increment houtcome
        cases hsum
        refine (proper_counter hcounter).mpr ?_
        cases hcurrent : m.find? id with
        | none =>
            change addTo (((m.find? id).map _).getD _) _ _ = _ at hadded
            rw [hcurrent] at hadded
            exact ⟨delta, (Except.ok.inj hadded).symm⟩
        | some current =>
            change addTo (((m.find? id).map _).getD _) _ _ = _ at hadded
            obtain ⟨total, hbody⟩ := (proper_counter hcounter).mp (h id current hcurrent)
            rw [hcurrent, Option.map_some, Option.getD_some, hbody] at hadded
            exact ⟨total + delta, eq_of_addTo_encode hadded⟩
  · exact h id d ((hothers id hid).symm.trans hfound)

theorem IsProper.commit (h : m.IsProper) {batch : Batch} (hbatch : ∀ w ∈ batch, w.IsProper)
    (hcommit : m.commit batch = .ok next) : next.IsProper := by
  induction batch generalizing m with
  | nil =>
      rw [commit_nil] at hcommit
      cases hcommit
      exact h
  | cons w rest ih =>
      rw [commit_cons] at hcommit
      obtain ⟨middle, hwrite, hrest⟩ := bind_eq_ok.mp hcommit
      exact ih (h.write (hbatch w List.mem_cons_self) hwrite)
        (fun other hother => hbatch other (List.mem_cons_of_mem w hother)) hrest

end Memory

end Jobyard
