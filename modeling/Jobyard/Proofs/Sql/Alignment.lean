import Jobyard.Proofs.Dict
import Jobyard.Proofs.Sql.Transcript
import Mathlib.Data.List.NodupEquivFin

/-!
Loading by identifiers. A position gets the document that the server returned for its identifier,
unless an earlier position has the same identifier: a document is handed out once. So the positions
are those of a store in memory exactly when no returned document was asked for twice.
-/

namespace Jobyard.Sql

def replied? (documents : List Stored) (id : DocId) : Option Stored :=
  documents.find? fun d => d.id = id

section Distinct

variable {documents : List Stored}

theorem replied?_eq_some_iff (hdistinct : (documents.map (·.id)).Nodup) {id : DocId}
    {d : Stored} : replied? documents id = some d ↔ d ∈ documents ∧ d.id = id := by
  unfold replied?
  constructor
  · intro h
    exact ⟨List.mem_of_find?_eq_some h, by simpa using List.find?_some h⟩
  · rintro ⟨hmem, rfl⟩
    obtain ⟨found, hfound⟩ : ∃ found, documents.find? (fun e => e.id = d.id) = some found :=
      Option.isSome_iff_exists.mp (List.find?_isSome.mpr ⟨d, hmem, decide_eq_true rfl⟩)
    have hid : found.id = d.id := by simpa using List.find?_some hfound
    rw [hfound, List.inj_on_of_nodup_map hdistinct (List.mem_of_find?_eq_some hfound) hmem hid]

theorem find?_ofList_documents (hdistinct : (documents.map (·.id)).Nodup) (id : DocId) :
    (Dict.ofList (documents.map fun d => (d.id, d))).find? id = replied? documents id := by
  refine (Entries.find?_ofList id _).trans ?_
  cases hlookup : (documents.map fun d => (d.id, d)).reverse.lookup id with
  | none =>
      refine (List.find?_eq_none.mpr fun d hd hid => ?_).symm
      have hne := List.lookup_eq_none_iff.mp hlookup (d.id, d)
        (List.mem_reverse.mpr (List.mem_map_of_mem hd))
      exact bne_iff_ne.mp hne (of_decide_eq_true hid).symm
  | some d =>
      obtain ⟨before, after, hsplit, _⟩ := List.lookup_eq_some_iff.mp hlookup
      have hmem : (id, d) ∈ documents.map fun d => (d.id, d) := by
        rw [← List.mem_reverse, hsplit]
        exact List.mem_append_right _ List.mem_cons_self
      obtain ⟨found, hfound, heq⟩ := List.mem_map.mp hmem
      cases heq
      exact ((replied?_eq_some_iff hdistinct).mpr ⟨hfound, rfl⟩).symm

end Distinct

theorem Row.document_of_read {row : Row} {text : String} {id : DocId} {body : Json}
    {etag sequence : Int} {expiresAt : Option Instant}
    (hid : row.read? "id" Cell.text? = some text)
    (hbody : row.read? "body" Cell.json? = some body)
    (hetag : row.read? "etag" Cell.int? = some etag)
    (hsequence : row.read? "sequence" Cell.int? = some sequence)
    (hexpiry : row.read? "expires_at" Cell.expiry? = some expiresAt)
    (hparse : DocId.parse text = .ok id) :
    row.document = .ok ⟨id, body, unsigned64 etag, unsigned64 sequence, expiresAt⟩ := by
  simp [Row.document, Row.columns?, hid, hbody, hetag, hsequence, hexpiry, hparse]

namespace Talk

theorem length_hand (found : Dict DocId Stored) (ids : List DocId) :
    (hand found ids).length = ids.length := by
  induction ids generalizing found with
  | nil => rfl
  | cons id rest ih => exact congrArg (· + 1) (ih (found.erase id))

theorem getElem?_hand (found : Dict DocId Stored) {ids : List DocId} {i : Nat} {id : DocId}
    (hid : ids[i]? = some id) :
    (hand found ids)[i]? = some (if id ∈ ids.take i then none else found.find? id) := by
  induction ids generalizing found i with
  | nil => cases hid
  | cons first rest ih =>
      cases i with
      | zero =>
          cases hid
          rfl
      | succ i =>
          change (hand (found.erase first) rest)[i]? = _
          rw [ih (found.erase first) hid, List.take_succ_cons]
          by_cases hfirst : id = first
          · subst hfirst
            simp
          · rw [found.find?_erase_of_ne hfirst]
            simp [hfirst]

theorem duplicate_iff_mem_take {ids : List DocId} {id : DocId} :
    ids.Duplicate id ↔ ∃ i, ids[i]? = some id ∧ id ∈ ids.take i := by
  rw [List.duplicate_iff_exists_distinct_get]
  constructor
  · rintro ⟨n, m, hlt, hn, hm⟩
    refine ⟨m, by simp [hm], List.mem_take_iff_getElem.mpr ⟨n, ?_, hn.symm⟩⟩
    exact Nat.lt_min.mpr ⟨hlt, n.isLt⟩
  · rintro ⟨i, hi, hmem⟩
    obtain ⟨hlt, hget⟩ := List.getElem?_eq_some_iff.mp hi
    obtain ⟨j, hj, hother⟩ := List.mem_take_iff_getElem.mp hmem
    exact ⟨⟨j, (Nat.lt_min.mp hj).2⟩, ⟨i, hlt⟩, (Nat.lt_min.mp hj).1, hother.symm, hget.symm⟩

theorem hand_eq_map_iff (found : Dict DocId Stored) (ids : List DocId) :
    hand found ids = ids.map found.find? ↔
      ∀ id, (found.find? id).isSome → ¬ ids.Duplicate id := by
  constructor
  · intro heq id hfound hduplicate
    obtain ⟨i, hi, htaken⟩ := duplicate_iff_mem_take.mp hduplicate
    have hsecond := getElem?_hand found hi
    rw [heq, List.getElem?_map, hi, Option.map_some, if_pos htaken] at hsecond
    rw [Option.some.inj hsecond] at hfound
    cases hfound
  · intro hsingle
    refine List.ext_getElem? fun i => ?_
    rw [List.getElem?_map]
    cases hi : ids[i]? with
    | none =>
        rw [Option.map_none, List.getElem?_eq_none_iff, length_hand]
        exact List.getElem?_eq_none_iff.mp hi
    | some id =>
        rw [getElem?_hand found hi, Option.map_some]
        split
        · rename_i htaken
          have habsent : ¬ (found.find? id).isSome := fun hfound =>
            hsingle id hfound (duplicate_iff_mem_take.mpr ⟨i, hi, htaken⟩)
          rw [Option.not_isSome_iff_eq_none.mp habsent]
        · rfl

theorem held_load_iff {ids : List DocId} {rows : List Row} {documents : List Stored}
    (hrows : rows.mapM Row.document = .ok documents)
    {result : Except StoreError (List (Option Stored))} :
    Held (load ids).run [⟨.fetch (.load ids), .ok rows⟩] result ↔
      result = .ok (hand (Dict.ofList (documents.map fun d => (d.id, d))) ids) := by
  refine held_fetch_bind_iff.trans ⟨?_, fun hresult => .inr ⟨rows, [], rfl, ?_⟩⟩
  · rintro (⟨_, hsaid, _⟩ | ⟨_, _, hsaid, hrest⟩)
    · cases hsaid
    · cases hsaid
      rw [hrows] at hrest
      exact (held_done_iff.mp hrest).2
  · rw [hrows]
    exact held_done_iff.mpr ⟨rfl, hresult⟩

/-- What a load returns, given what the server returned. Each position is answered, an identifier
gets its document at its first position only, and so the answer is that of a store in memory with
the same documents exactly when none of them was asked for twice. -/
theorem aligned_iff_unrepeated (ids : List DocId) {rows : List Row} {documents : List Stored}
    (hrows : rows.mapM Row.document = .ok documents)
    (hdistinct : (documents.map (·.id)).Nodup) :
    ∃ loaded, (∀ result,
        Held (load ids).run [⟨.fetch (.load ids), .ok rows⟩] result ↔ result = .ok loaded) ∧
      loaded.length = ids.length ∧
      (∀ i id, ids[i]? = some id →
        loaded[i]? = some (if id ∈ ids.take i then none else replied? documents id)) ∧
      (loaded = ids.map (replied? documents) ↔ ∀ d ∈ documents, ids.count d.id ≤ 1) ∧
      ∀ m : Memory, (∀ id, m.find? id = replied? documents id) →
        (loaded = m.load ids ↔ ∀ d ∈ documents, ids.count d.id ≤ 1) := by
  have hfind : (Dict.ofList (documents.map fun d => (d.id, d))).find? = replied? documents :=
    funext fun id => find?_ofList_documents hdistinct id
  have haligned : hand (Dict.ofList (documents.map fun d => (d.id, d))) ids =
      ids.map (replied? documents) ↔ ∀ d ∈ documents, ids.count d.id ≤ 1 := by
    rw [← hfind, hand_eq_map_iff, hfind]
    simp only [List.duplicate_iff_two_le_count, Nat.not_le, Nat.lt_succ_iff]
    constructor
    · intro hsingle d hd
      refine hsingle d.id ?_
      rw [(replied?_eq_some_iff hdistinct).mpr ⟨hd, rfl⟩]
      rfl
    · intro hsingle id hfound
      obtain ⟨d, hd⟩ := Option.isSome_iff_exists.mp hfound
      obtain ⟨hmem, rfl⟩ := (replied?_eq_some_iff hdistinct).mp hd
      exact hsingle d hmem
  refine ⟨_, fun result => held_load_iff hrows, length_hand _ ids, fun i id hid => ?_, haligned,
    fun m hm => ?_⟩
  · rw [getElem?_hand _ hid, hfind]
  · rw [Memory.load, show m.find? = replied? documents from funext hm]
    exact haligned

namespace Sample

def row (text : String) : Row :=
  [("id", .text text), ("body", .json "\x7b\x7d"), ("etag", .int 1), ("sequence", .int 1),
    ("expires_at", .null)]

def document (key : String) : Stored := ⟨⟨"hashes", key⟩, .obj [], 1, 1, none⟩

theorem document_row {text key : String} (hparse : DocId.parse text = .ok ⟨"hashes", key⟩) :
    (row text).document = .ok (document key) := by
  have hid : (row text).read? "id" Cell.text? = some text := rfl
  exact Row.document_of_read hid rfl rfl rfl rfl hparse

theorem document_row_a : (row "hashes/a").document = .ok (document "a") := document_row rfl

theorem document_row_b : (row "hashes/b").document = .ok (document "b") := document_row rfl

end Sample

/-- Rows in another order, and an identifier without a row. -/
theorem aligned_of_two :
    [Sample.row "hashes/a", Sample.row "hashes/b"].mapM Row.document =
        .ok [Sample.document "a", Sample.document "b"] ∧
      ([Sample.document "a", Sample.document "b"].map (·.id)).Nodup ∧
      ∃ loaded, (∀ result, Held (load [⟨"hashes", "b"⟩, ⟨"hashes", "c"⟩, ⟨"hashes", "a"⟩]).run
          [⟨.fetch (.load [⟨"hashes", "b"⟩, ⟨"hashes", "c"⟩, ⟨"hashes", "a"⟩]),
            .ok [Sample.row "hashes/a", Sample.row "hashes/b"]⟩] result ↔ result = .ok loaded) ∧
        loaded = [some (Sample.document "b"), none, some (Sample.document "a")] := by
  have hrows : [Sample.row "hashes/a", Sample.row "hashes/b"].mapM Row.document =
      .ok [Sample.document "a", Sample.document "b"] := by
    rw [List.mapM_cons, List.mapM_cons, Sample.document_row_a, Sample.document_row_b]
    rfl
  have hdistinct : ([Sample.document "a", Sample.document "b"].map (·.id)).Nodup := by decide
  refine ⟨hrows, hdistinct, ?_⟩
  obtain ⟨loaded, hheld, _, _, haligned, _⟩ :=
    aligned_iff_unrepeated [⟨"hashes", "b"⟩, ⟨"hashes", "c"⟩, ⟨"hashes", "a"⟩] hrows hdistinct
  exact ⟨loaded, hheld, haligned.mpr (by decide)⟩

/-- A document that is asked for twice is missing the second time. -/
theorem unaligned_of_repeated :
    ¬ ∀ (ids : List DocId) (rows : List Row) (documents : List Stored)
        (loaded : List (Option Stored)), rows.mapM Row.document = .ok documents →
      (documents.map (·.id)).Nodup →
      Held (load ids).run [⟨.fetch (.load ids), .ok rows⟩] (.ok loaded) →
        loaded = ids.map (replied? documents) := by
  intro hall
  have hrows : [Sample.row "hashes/a"].mapM Row.document = .ok [Sample.document "a"] := by
    rw [List.mapM_cons, Sample.document_row_a]
    rfl
  have htwice := hall [⟨"hashes", "a"⟩, ⟨"hashes", "a"⟩] _ _
    [some (Sample.document "a"), none] hrows (by decide) ((held_load_iff hrows).mpr rfl)
  cases htwice

end Talk

end Jobyard.Sql
