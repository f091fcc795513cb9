import Jobyard.Proofs.Id
import Jobyard.Proofs.Sql.Alignment
import Jobyard.Proofs.Sql.Protocol

/-!
Identifiers in a table. The statement of a write addresses its document by the text of the
identifier, and whoever reads the row has nothing but that text to tell the identifier from.
-/

namespace Jobyard.Sql

structure Row.Holds (row : Row) (d : Stored) : Prop where
  id : row.read? "id" Cell.text? = some d.id.text
  body : row.read? "body" Cell.json? = some d.body
  etag : (row.read? "etag" Cell.int?).map unsigned64 = some d.etag
  sequence : (row.read? "sequence" Cell.int?).map unsigned64 = some d.sequence
  expiry : row.read? "expires_at" Cell.expiry? = some d.expiresAt

section Rows

variable {row : Row} {d : Stored}

theorem Row.Holds.columns (h : row.Holds d) :
    ∃ stored, row.columns? = some (d.id.text, stored) ∧ stored d.id = d := by
  obtain ⟨etag, hetag, htag⟩ := Option.map_eq_some_iff.mp h.etag
  obtain ⟨sequence, hsequence, hnumber⟩ := Option.map_eq_some_iff.mp h.sequence
  unfold Row.columns?
  rw [h.id, h.body, hetag, hsequence, h.expiry]
  refine ⟨_, rfl, ?_⟩
  simp only [htag, hnumber]

theorem Row.document_of_holds (h : row.Holds d) (hfiled : d.id.IsFiled) :
    row.document =
      if d.id.key = "" then .error (.model (.id (.document d.id.text))) else .ok d := by
  obtain ⟨stored, hcolumns, hstored⟩ := h.columns
  unfold Row.document
  rw [hcolumns]
  simp only [DocId.parse_text hfiled]
  by_cases hkey : d.id.key = ""
  · simp only [if_pos hkey]
  · simp only [if_neg hkey, hstored]

example : (Talk.Sample.row "hashes/").document = .error (.model (.id (.document "hashes/"))) := by
  rfl

end Rows

/-- A document that is read back: its identifier from the text, and the whole of it from any row
that has it. -/
structure Recovered (id : DocId) : Prop where
  text : DocId.parse id.text = .ok id
  row : ∀ (row : Row) (d : Stored), d.id = id → row.Holds d → row.document = .ok d

theorem recovered_iff {id : DocId} (hfiled : id.IsFiled) : Recovered id ↔ id.key ≠ "" := by
  refine ⟨fun h => (DocId.parse_text_iff hfiled).mp h.text, fun hkey => ⟨?_, ?_⟩⟩
  · exact (DocId.parse_text_iff hfiled).mpr hkey
  · rintro row d rfl hholds
    rw [Row.document_of_holds hholds hfiled, if_neg hkey]

theorem recovered_ofParts_iff {name : String} {kind : Kind} (hkind : (name, kind) ∈ Kind.all)
    (parts : List String) :
    Recovered (DocId.ofParts kind.collection parts) ↔ parts ≠ [] ∧ parts ≠ [""] := by
  have hfiled : (DocId.ofParts kind.collection parts).IsFiled := ⟨(name, kind), hkind, rfl⟩
  rw [recovered_iff hfiled, ne_eq, DocId.key_ofParts_eq_empty_iff, not_or]

def Request.Addresses (request : Request) (id : DocId) : Prop :=
  ∃ statement, (request = .execute statement ∨ request = .fetch statement) ∧
    statement.params.head? = some (.text id.text)

theorem addresses_requestOf (w : Write) : (requestOf w).Addresses w.id := by
  cases w with
  | put id body expiresAt expected => cases expected <;> exact ⟨_, .inl rfl, rfl⟩
  | delete id expected =>
      cases expected with
      | any => exact ⟨_, .inl rfl, rfl⟩
      | exact etag => exact ⟨_, .inl rfl, rfl⟩
      | absent => exact ⟨_, .inr rfl, rfl⟩
  | increment => exact ⟨_, .inl rfl, rfl⟩

section Statements

variable {batch : Batch} {said : Transcript} {x : Said}

theorem Carried.addresses {result : Except WriteFailure Unit} (h : Carried batch said result)
    (hx : x ∈ said) : ∃ w ∈ batch, x.request.Addresses w.id := by
  have hrequest : x.request ∈ said.map (·.request) := List.mem_map_of_mem hx
  rw [h.order] at hrequest
  obtain ⟨w, hw, heq⟩ := List.mem_map.mp hrequest
  exact ⟨w, List.mem_of_mem_take hw, heq ▸ addresses_requestOf w⟩

theorem Course.addresses {result : Except StoreError Unit} (h : Course batch said result)
    (hx : x ∈ said) (hstatement : x.isStatement) : ∃ w ∈ batch, x.request.Addresses w.id := by
  have hinner : ∀ {statements ending : Transcript} {written : Except WriteFailure Unit},
      Carried batch statements written → x ∈ ⟨.begin, .ok ()⟩ :: (statements ++ ending) →
      (∀ other ∈ ending, other.isStatement = false) →
        ∃ w ∈ batch, x.request.Addresses w.id := by
    intro statements ending written hcarried hx hending
    rcases List.mem_cons.mp hx with rfl | hx
    · cases hstatement
    · rcases List.mem_append.mp hx with hcarriedOut | hend
      · exact hcarried.addresses hcarriedOut
      · rw [hending x hend] at hstatement
        cases hstatement
  cases h with
  | unbegun f =>
      cases List.mem_singleton.mp hx
      cases hstatement
  | lost hcarried => exact hinner hcarried hx (by simp [Said.isStatement])
  | broken hcarried => exact hinner hcarried hx (by simp)
  | committed hcarried => exact hinner hcarried hx (by simp [Said.isStatement])
  | unreachable hcarried => exact hinner hcarried hx (by simp [Said.isStatement])
  | refused code message hcarried => exact hinner hcarried hx (by simp [Said.isStatement])

theorem addressed_of_held {result : Except StoreError Unit}
    (h : Held (Talk.commit batch).run said result) (hx : x ∈ said) (hstatement : x.isStatement) :
    ∃ w ∈ batch, x.request.Addresses w.id := by
  by_cases hbatch : batch = []
  · subst hbatch
    obtain ⟨rfl, _⟩ := held_done_iff.mp h
    cases hx
  · exact (course_of_held hbatch h).addresses hx hstatement

end Statements

end Jobyard.Sql
