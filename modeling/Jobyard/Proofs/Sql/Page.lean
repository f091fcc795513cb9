import Jobyard.Proofs.Sql.Places
import Jobyard.Proofs.Store.Paging
import Jobyard.Proofs.Store.Purge
import Mathlib.Algebra.Group.Nat.Defs

/-!
The numbers of pages and of batches as they are sent. They cross into numbers with a sign, so that
those of the upper half arrive as negative ones, which a server refuses; all others select what a
store in memory selects.
-/

namespace Jobyard

namespace Sql

theorem signed64_of_lt {n : Nat} (h : n < 2 ^ 63) : signed64 n = n := by
  unfold signed64 range64
  simp only
  omega

theorem signed64_nonneg_iff {n : Nat} (h : n < range64) : 0 ≤ signed64 n ↔ n < 2 ^ 63 := by
  unfold range64 at h
  unfold signed64 range64
  simp only
  omega

theorem signed64_fits {n : Nat} (h : n < 2 ^ 63) :
    0 ≤ signed64 n ∧ signed64 n ≤ Json.greatest64 := by
  rw [signed64_of_lt h]
  unfold Json.greatest64
  omega

/-- What a server selects of some rows, or nothing if it refuses to. -/
abbrev Selection := (count offset : Option Int) → List Stored → Option (List Stored)

/-- A server selects at most so many rows, from an offset on. This says nothing of numbers below
zero. -/
def Selection.Pages (select : Selection) : Prop :=
  ∀ (count offset : Option Nat) (rows : List Stored),
    select (count.map Int.ofNat) (offset.map Int.ofNat) rows =
      some (Query.slice (offset.getD 0) count rows)

namespace Statement

def pageOf (count offset : Option Int) : List Piece :=
  (count.toList.flatMap fun n => [.text " LIMIT ", .value (.int n)]) ++
    offset.toList.flatMap fun n => [.text " OFFSET ", .value (.int n)]

def withPage (s : Statement) (count offset : Option Int) : Statement where
  text := s.text ++ textFrom (s.params.length + 1) (pageOf count offset)
  params := s.params ++ valuesOf (pageOf count offset)

def deleting (selection : Statement) : Statement :=
  { selection with text := "DELETE FROM documents WHERE id IN ( " ++ (selection.text ++ " )") }

def expired (now : Instant) : Statement where
  text := "SELECT id FROM documents WHERE expires_at IS NOT NULL AND expires_at <= $1"
  params := [.ofInstant now]

theorem pagePieces_eq (q : Query) :
    pagePieces q =
      pageOf (q.take.map signed64) (if q.skip = 0 then none else some (signed64 q.skip)) := by
  obtain ⟨_, _, _, skip, take⟩ := q
  cases take <;> cases skip <;> rfl

theorem ofPieces_append_page (pieces : List Piece) (count offset : Option Int) :
    ofPieces (pieces ++ pageOf count offset) = (ofPieces pieces).withPage count offset := by
  unfold ofPieces withPage
  rw [textFrom_append, valuesOf_append, Nat.add_comm]

theorem query_eq_withPage (q : Query) :
    query q = (query (q.cut 0 none)).withPage (q.take.map signed64)
      (if q.skip = 0 then none else some (signed64 q.skip)) := by
  have hcut : query (q.cut 0 none) = ofPieces
      (.text "SELECT id, body, etag, sequence, expires_at FROM documents" ::
        (conditionPieces q ++ orderPieces q.order)) := by
    unfold query
    rw [show pagePieces (q.cut 0 none) = [] from rfl, List.append_nil]
    rfl
  rw [hcut, ← ofPieces_append_page, ← pagePieces_eq, List.cons_append]
  rfl

theorem purge_eq_withPage (now : Instant) (limit : Nat) :
    purge now limit = deleting ((expired now).withPage (some (signed64 limit)) none) := by
  have hpage : textFrom 2 (pageOf (some (signed64 limit)) none) = " LIMIT $2" := by
    have hzero : textFrom 2 (pageOf (some 0) none) = " LIMIT $2" := by decide
    exact (textFrom_of_outline 2 rfl).trans hzero
  have htext : "DELETE FROM documents WHERE id IN ( SELECT id FROM documents " ++
      "WHERE expires_at IS NOT NULL AND expires_at <= $1 LIMIT $2 )" =
        "DELETE FROM documents WHERE id IN ( " ++
          (("SELECT id FROM documents WHERE expires_at IS NOT NULL AND expires_at <= $1" ++
            " LIMIT $2") ++ " )") := by
    decide
  rw [← hpage] at htext
  exact congrArg (Statement.mk · [.ofInstant now, .int (signed64 limit)]) htext

end Statement

namespace Talk

/-- A talk of one order: its statement is sent, and whatever is answered ends the talk. -/
def Executes {α : Type} (talk : Talk α) (s : Statement) : Prop :=
  ∀ said, (∃ result, Held talk.run said result) ↔ ∃ reply, said = [⟨.execute s, reply⟩]

theorem executes_purge (now : Instant) (limit : Nat) :
    Executes (purge now limit) (.purge now limit) := by
  intro said
  constructor
  · rintro ⟨result, hheld⟩
    obtain ⟨reply, rest, rfl, hrest⟩ := held_call_iff.mp hheld
    cases reply <;> obtain ⟨rfl, -⟩ := held_done_iff.mp hrest <;> exact ⟨_, rfl⟩
  · rintro ⟨reply, rfl⟩
    cases reply with
    | ok affected => exact ⟨_, held_call_iff.mpr ⟨.ok affected, [], rfl, .done _⟩⟩
    | error failure => exact ⟨_, held_call_iff.mpr ⟨.error failure, [], rfl, .done _⟩⟩

end Talk

variable (select : Selection)

/-- Numbers of 64 bits, none below zero, by which a server selects what a query selects of the
documents in its order. -/
structure PageSent (q : Query) (count offset : Option Int) : Prop where
  fits : ∀ n ∈ count.toList ++ offset.toList, 0 ≤ n ∧ n ≤ Json.greatest64
  selects : ∀ documents : List Stored, documents.length < 2 ^ 63 →
    select count offset (documents.mergeSort q.comesFirst) = some (q.finish documents)

/-- A number of 64 bits, not below zero, by which a server selects what a purge takes away of the
expired documents, in whatever order these are found. -/
structure BatchSent (now : Instant) (limit : Nat) (count : Int) : Prop where
  fits : 0 ≤ count ∧ count ≤ Json.greatest64
  selects : ∀ (m : Memory) (scan : List Stored), scan.length < 2 ^ 63 →
    ∃ taken, select (some count) none (scan.filter (Memory.isExpired now)) = some taken ∧
      m.purgeScanned scan now limit =
        ({ m with documents := (taken.map (·.id)).foldl Dict.erase m.documents }, taken.length)

variable {select} (hselect : select.Pages)
include hselect

theorem pageSent_iff {q : Query} (hskip : q.skip < range64) (htake : ∀ n ∈ q.take, n < range64) :
    PageSent select q (q.take.map signed64)
        (if q.skip = 0 then none else some (signed64 q.skip)) ↔
      q.skip < 2 ^ 63 ∧ ∀ n ∈ q.take, n < 2 ^ 63 := by
  constructor
  · intro h
    refine ⟨?_, fun n hn => ?_⟩
    · by_cases hzero : q.skip = 0
      · omega
      · refine (signed64_nonneg_iff hskip).mp (h.fits _ ?_).1
        rw [if_neg hzero]
        exact List.mem_append_right _ List.mem_cons_self
    · refine (signed64_nonneg_iff (htake n hn)).mp (h.fits _ ?_).1
      rw [Option.mem_def.mp hn]
      exact List.mem_append_left _ List.mem_cons_self
  · rintro ⟨hskipped, htaken⟩
    refine ⟨fun n hn => ?_, fun documents _ => ?_⟩
    · rcases List.mem_append.mp hn with hn | hn
      · obtain ⟨k, hk, rfl⟩ := Option.map_eq_some_iff.mp (Option.mem_toList.mp hn)
        exact signed64_fits (htaken k hk)
      · split at hn
        · cases hn
        · cases List.mem_singleton.mp hn
          exact signed64_fits hskipped
    · have hcount : q.take.map signed64 = q.take.map Int.ofNat :=
        Option.map_congr fun n hn => signed64_of_lt (htaken n hn)
      rw [hcount, signed64_of_lt hskipped]
      change _ = some ((q.cut q.skip q.take).finish documents)
      rw [Query.finish_cut]
      by_cases hzero : q.skip = 0
      · rw [if_pos hzero, hzero]
        exact hselect q.take none _
      · rw [if_neg hzero]
        exact hselect q.take (some q.skip) _

theorem batchSent_iff {now : Instant} {limit : Nat} (hlimit : limit < range64) :
    BatchSent select now limit (signed64 limit) ↔ limit < 2 ^ 63 := by
  constructor
  · exact fun h => (signed64_nonneg_iff hlimit).mp h.fits.1
  · intro h
    refine ⟨signed64_fits h, fun m scan _ => ?_⟩
    rw [signed64_of_lt h]
    exact ⟨_, hselect (some limit) none _, rfl⟩

/-- A valid query and a purge send numbers for their pages that are not below zero and that select
what a store in memory selects, exactly if the numbers that they were given are below the upper
half of 64 bits. -/
theorem pages_sent_iff {q : Query} (hvalid : q.validate = .ok ()) (hskip : q.skip < range64)
    (htake : ∀ n ∈ q.take, n < range64) (now : Instant) {limit : Nat} (hlimit : limit < range64) :
    (∃ count offset,
      Talk.Asks (Talk.query q) ((Statement.query (q.cut 0 none)).withPage count offset) ∧
        (PageSent select q count offset ↔ q.skip < 2 ^ 63 ∧ ∀ n ∈ q.take, n < 2 ^ 63)) ∧
    ∃ count,
      Talk.Executes (Talk.purge now limit)
          (.deleting ((Statement.expired now).withPage (some count) none)) ∧
        (BatchSent select now limit count ↔ limit < 2 ^ 63) := by
  refine ⟨⟨_, _, ?_, pageSent_iff hselect hskip htake⟩, _, ?_, batchSent_iff hselect hlimit⟩
  · rw [← Statement.query_eq_withPage]
    exact Talk.asks_query hvalid
  · rw [← Statement.purge_eq_withPage]
    exact Talk.executes_purge now limit

omit hselect

namespace Sample

def selection : Selection := fun count offset rows =>
  if count.any (· < 0) || offset.any (· < 0) then none
  else some (Query.slice (offset.getD 0).toNat (count.map Int.toNat) rows)

theorem selection_pages : selection.Pages := by
  intro count offset rows
  cases count <;> cases offset <;> simp [selection]

end Sample

theorem pages_sent_of_ten :
    let q : Query := (Query.ofCollection "jobs").page 20 10
    Sample.selection.Pages ∧ q.validate = .ok () ∧
      (∃ count offset,
        Talk.Asks (Talk.query q) ((Statement.query (q.cut 0 none)).withPage count offset) ∧
          PageSent Sample.selection q count offset) ∧
      ∃ count,
        Talk.Executes (Talk.purge epoch 1000)
            (.deleting ((Statement.expired epoch).withPage (some count) none)) ∧
          BatchSent Sample.selection epoch 1000 count := by
  intro q
  have hvalid : q.validate = .ok () := rfl
  have htake : ∀ n ∈ q.take, n = 10 := fun n hn => (Option.mem_some.mp hn).symm
  obtain ⟨⟨count, offset, hasks, hpage⟩, sent, hexecutes, hbatch⟩ :=
    pages_sent_iff Sample.selection_pages hvalid (by decide)
      (fun n hn => by rw [htake n hn]; decide) epoch (show 1000 < range64 by decide)
  refine ⟨Sample.selection_pages, hvalid,
    ⟨count, offset, hasks, hpage.mpr ⟨by decide, fun n hn => ?_⟩⟩, sent, hexecutes,
    hbatch.mpr (by decide)⟩
  rw [htake n hn]
  decide

/-- The greatest number of documents that can be asked for is sent as a negative one. -/
theorem negative_count_sent :
    ¬ ∀ q : Query, q.validate = .ok () → q.skip < range64 → (∀ n ∈ q.take, n < range64) →
      ∀ n, .int n ∈ (Statement.query q).params → 0 ≤ n := by
  intro hall
  have hsent := hall ((Query.ofCollection "jobs").page 0 (range64 - 1)) rfl (by decide)
    (fun n hn => by rw [← Option.mem_some.mp hn]; decide) (-1)
  rw [Statement.params_query] at hsent
  exact absurd (hsent (by decide)) (by decide)

end Sql

end Jobyard
