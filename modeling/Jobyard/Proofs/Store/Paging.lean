import Jobyard.Proofs.Store.Arrival
import Jobyard.Proofs.Store.Query
import Jobyard.Proofs.Time.Instant

/-!
Pages of a query. A valid query has one result: the documents that match it, each once, in the
order of their numbers, however the store is scanned. A page is a part of that result, pages that
follow each other make it up, and a count is its length.
-/

namespace Jobyard

namespace Json

inductive Leads : List String → Json → Json → Prop
  | here (value : Json) : Leads [] value value
  | member {name : String} {rest : List String} {value next found : Json}
    (hmember : value.member? name = some next) (hrest : Leads rest next found) :
    Leads (name :: rest) value found

theorem leads_cons_iff {name : String} {rest : List String} {value found : Json} :
    Leads (name :: rest) value found ↔
      ∃ next, value.member? name = some next ∧ Leads rest next found := by
  constructor
  · intro h
    cases h with
    | member hmember hrest => exact ⟨_, hmember, hrest⟩
  · rintro ⟨next, hmember, hrest⟩
    exact .member hmember hrest

/-- What stands at a path: a path that leads nowhere reads as `null`. -/
def Reads (path : List String) (value found : Json) : Prop :=
  Leads path value found ∨ (found = .null ∧ ∀ other, ¬ Leads path value other)

theorem reads_follow (path : List String) (value : Json) :
    Reads path value (value.follow path) := by
  induction path generalizing value with
  | nil => exact .inl (.here value)
  | cons name rest ih =>
      rw [follow_cons]
      cases hmember : value.member? name with
      | none =>
          refine .inr ⟨rfl, fun other hother => ?_⟩
          obtain ⟨next, hnext, _⟩ := leads_cons_iff.mp hother
          rw [hmember] at hnext
          cases hnext
      | some next =>
          rcases ih next with hleads | ⟨hnull, hnowhere⟩
          · exact .inl (.member hmember hleads)
          · refine .inr ⟨hnull, fun other hother => ?_⟩
            obtain ⟨inner, hinner, hrest⟩ := leads_cons_iff.mp hother
            rw [hmember] at hinner
            cases hinner
            exact hnowhere other hrest

theorem leads_unique {path : List String} {value found other : Json}
    (hfound : Leads path value found) (hother : Leads path value other) : found = other := by
  induction hfound with
  | here => cases hother; rfl
  | member hmember _ ih =>
      obtain ⟨next, hnext, hrest⟩ := leads_cons_iff.mp hother
      rw [hmember] at hnext
      cases hnext
      exact ih hrest

theorem reads_iff {path : List String} {value found : Json} :
    Reads path value found ↔ found = value.follow path := by
  constructor
  · intro h
    rcases h, reads_follow path value with
      ⟨hleads | ⟨hnull, hnowhere⟩, hthere | ⟨hmissing, hnone⟩⟩
    · exact leads_unique hleads hthere
    · exact absurd hleads (hnone _)
    · exact absurd hthere (hnowhere _)
    · exact hnull.trans hmissing.symm
  · rintro rfl
    exact reads_follow path value

end Json

def Condition.Met : Condition → Json → Prop
  | .equals value, found => found.same value = true
  | .oneOf values, found => ∃ value ∈ values, value.same found = true
  | .isNull, found => found = .null
  | .notNull, found => found ≠ .null
  | .before time, found =>
    ∃ text t, found = .str text ∧ Instant.parse? text = some t ∧ t.place < time.place

theorem Condition.holds_iff (condition : Condition) (found : Json) :
    condition.holds found = true ↔ condition.Met found := by
  cases condition with
  | equals value => exact Iff.rfl
  | oneOf values => exact List.any_eq_true
  | isNull => cases found <;> simp [holds, Met, Json.isNull]
  | notNull => cases found <;> simp [holds, Met, Json.isNull]
  | before time =>
      cases found with
      | str text =>
          cases hparse : Instant.parse? text with
          | none => simp [holds, Met, Json.str?, hparse]
          | some t => simp [holds, Met, Json.str?, hparse, Instant.before_iff]
      | _ => simp [holds, Met, Json.str?]

def Filter.Matches (f : Filter) (body : Json) : Prop :=
  ∃ found, Json.Reads f.path body found ∧ f.condition.Met found

theorem Filter.accepts_iff (f : Filter) (body : Json) :
    f.accepts body = true ↔ f.Matches body := by
  simp only [accepts, Matches, Condition.holds_iff, Json.reads_iff, exists_eq_left]

def Order.Precedes : Order → Stored → Stored → Prop
  | .oldestFirst, a, b => a.sequence < b.sequence
  | .newestFirst, a, b => b.sequence < a.sequence

theorem Order.Precedes.asymm {order : Order} {a b : Stored} (h : order.Precedes a b) :
    ¬ order.Precedes b a := by
  cases order with
  | oldestFirst => exact Nat.lt_asymm h
  | newestFirst => exact Nat.lt_asymm h

theorem Order.Precedes.ne {order : Order} {a b : Stored} (h : order.Precedes a b) : a ≠ b := by
  rintro rfl
  exact h.asymm h

namespace Query

variable {q : Query}

structure Matches (q : Query) (d : Stored) : Prop where
  collection : d.id.collection = q.collection
  filters : ∀ f ∈ q.filters, f.Matches d.body

theorem accepts_iff {d : Stored} : q.accepts d = true ↔ q.Matches d := by
  simp only [accepts, Bool.and_eq_true, beq_iff_eq, List.all_eq_true, Filter.accepts_iff]
  exact ⟨fun h => ⟨h.1, h.2⟩, fun h => ⟨h.collection, h.filters⟩⟩

def cut (q : Query) (skip : Nat) (take : Option Nat) : Query := { q with skip, take }

@[simp] theorem validate_cut (skip : Nat) (take : Option Nat) :
    (q.cut skip take).validate = q.validate := rfl

@[simp] theorem accepts_cut (skip : Nat) (take : Option Nat) :
    (q.cut skip take).accepts = q.accepts := rfl

@[simp] theorem comesFirst_cut (skip : Nat) (take : Option Nat) :
    (q.cut skip take).comesFirst = q.comesFirst := rfl

def slice {α : Type} (skip : Nat) (take : Option Nat) (documents : List α) : List α :=
  match take with
  | none => documents.drop skip
  | some n => (documents.drop skip).take n

theorem finish_cut (skip : Nat) (take : Option Nat) (documents : List Stored) :
    (q.cut skip take).finish documents = slice skip take (documents.mergeSort q.comesFirst) := by
  cases take <;> rfl

theorem flatten_slices {α : Type} (documents : List α) (n k : Nat) :
    ((List.range k).map fun i => slice (i * n) (some n) documents).flatten =
      documents.take (k * n) := by
  induction k with
  | zero => rw [Nat.zero_mul, List.take_zero]; rfl
  | succ k ih =>
      rw [List.range_succ, List.map_append, List.flatten_append, ih, Nat.succ_mul, List.take_add]
      exact congrArg _ (List.append_nil _)

def Apart (documents : List Stored) : Prop :=
  documents.Pairwise fun a b => a.sequence ≠ b.sequence

theorem precedes_of_comesFirst {a b : Stored} (h : q.comesFirst a b = true)
    (hne : a.sequence ≠ b.sequence) : q.order.Precedes a b := by
  unfold comesFirst at h
  cases horder : q.order with
  | oldestFirst =>
      rw [horder] at h
      exact Nat.lt_of_le_of_ne (of_decide_eq_true h) hne
  | newestFirst =>
      rw [horder] at h
      exact Nat.lt_of_le_of_ne (of_decide_eq_true h) hne.symm

theorem ordered_mergeSort {documents : List Stored} (hapart : Apart documents) :
    (documents.mergeSort q.comesFirst).Pairwise q.order.Precedes := by
  have hsorted : Apart (documents.mergeSort q.comesFirst) :=
    hapart.perm (List.mergeSort_perm _ _).symm Ne.symm
  exact ((q.pairwise_mergeSort documents).and hsorted).imp fun ⟨hfirst, hne⟩ =>
    precedes_of_comesFirst hfirst hne

theorem mergeSort_eq_of_perm {documents scan : List Stored} (hapart : Apart documents)
    (hperm : scan.Perm documents) :
    scan.mergeSort q.comesFirst = documents.mergeSort q.comesFirst := by
  -- Numbers differ, so the order leaves one arrangement only, wherever the scan began.
  refine List.Perm.eq_of_pairwise (fun a b _ _ hab hba => absurd hba hab.asymm)
    (ordered_mergeSort (hapart.perm hperm.symm Ne.symm)) (ordered_mergeSort hapart) ?_
  exact (List.mergeSort_perm _ _).trans (hperm.trans (List.mergeSort_perm _ _).symm)

end Query

namespace Memory

variable {m : Memory} {q : Query}

theorem Numbered.apart_values (h : m.Numbered) : Query.Apart m.documents.values := by
  refine List.pairwise_map.mpr (m.documents.sorted.imp_of_mem ?_)
  intro a b ha hb hlt hsame
  have hid : a.1 = b.1 := h.distinct a.1 b.1 a.2 b.2
    (Entries.find?_eq_some_of_mem m.documents.sorted ha)
    (Entries.find?_eq_some_of_mem m.documents.sorted hb) hsame
  have heq : compare a.1 b.1 = .eq := hid ▸ Std.ReflCmp.compare_self
  rw [heq] at hlt
  cases hlt

/-- What a valid query finds in a store, page by page. -/
structure Paged (m : Memory) (q : Query) (whole : List Stored) : Prop where
  unpaged : m.query (q.cut 0 none) = .ok whole
  mem_iff : ∀ d, d ∈ whole ↔ m.find? d.id = some d ∧ q.Matches d
  once : (whole.map (·.id)).Nodup
  ordered : whole.Pairwise q.order.Precedes
  /-- The order in which the documents are scanned makes no difference. -/
  scanned : ∀ scan : List Stored, scan.Perm m.documents.values → ∀ skip take,
    (q.cut skip take).finish (scan.filter (q.cut skip take).accepts) =
      Query.slice skip take whole
  sliced : ∀ skip take, m.query (q.cut skip take) = .ok (Query.slice skip take whole)
  partitioned : ∀ n k, whole.length ≤ k * n →
    ∃ pages, ((List.range k).mapM fun i => m.query (q.page (i * n) n)) = .ok pages ∧
      pages.flatten = whole
  counted : ∀ skip take, m.count (q.cut skip take) = .ok whole.length

theorem query_cut (hvalid : q.validate = .ok ()) (skip : Nat) (take : Option Nat) :
    m.query (q.cut skip take) =
      .ok (Query.slice skip take ((m.accepted q).mergeSort q.comesFirst)) := by
  rw [← Query.finish_cut]
  unfold query
  rw [Query.validate_cut, hvalid]
  rfl

theorem query_pages (hvalid : q.validate = .ok ()) (n k : Nat) :
    ((List.range k).mapM fun i => m.query (q.page (i * n) n)) =
      .ok ((List.range k).map fun i =>
        Query.slice (i * n) (some n) ((m.accepted q).mergeSort q.comesFirst)) := by
  have hpage : (fun i => m.query (q.page (i * n) n)) = fun i =>
      .ok (Query.slice (i * n) (some n) ((m.accepted q).mergeSort q.comesFirst)) :=
    funext fun i => query_cut hvalid (i * n) (some n)
  rw [hpage]
  exact List.mapM_pure

theorem count_cut (hvalid : q.validate = .ok ()) (skip : Nat) (take : Option Nat) :
    m.count (q.cut skip take) = .ok (m.accepted q).length := by
  unfold count
  rw [Query.validate_cut, hvalid]
  rfl

theorem Numbered.paged (h : m.Numbered) (hvalid : q.validate = .ok ()) :
    m.Paged q ((m.accepted q).mergeSort q.comesFirst) := by
  have hapart : Query.Apart (m.accepted q) := h.apart_values.filter q.accepts
  have hordered := Query.ordered_mergeSort (q := q) hapart
  have hmem : ∀ d, d ∈ (m.accepted q).mergeSort q.comesFirst ↔
      m.find? d.id = some d ∧ q.Matches d := fun d => by
    rw [(List.mergeSort_perm _ _).mem_iff, mem_accepted_iff h.keyed, Query.accepts_iff]
  refine
    { unpaged := query_cut hvalid 0 none
      mem_iff := hmem
      once := ?_
      ordered := hordered
      scanned := fun scan hscan skip take => ?_
      sliced := query_cut hvalid
      partitioned := fun n k henough => ?_
      counted := fun skip take => ?_ }
  · refine List.pairwise_map.mpr (List.Pairwise.imp_of_mem (fun ha hb hprecedes hid => ?_) hordered)
    have hsame := ((hmem _).mp ha).1
    rw [hid, ((hmem _).mp hb).1] at hsame
    exact hprecedes.ne (Option.some.inj hsame).symm
  · rw [Query.finish_cut, Query.accepts_cut,
      Query.mergeSort_eq_of_perm hapart (hscan.filter q.accepts)]
  · refine ⟨_, query_pages hvalid n k, ?_⟩
    rw [Query.flatten_slices, List.take_of_length_le henough]
  · rw [count_cut hvalid, List.length_mergeSort]

end Memory

namespace Simulation.World

/-- Whatever was asked of a store, a valid query partitions what matches it into pages. -/
theorem pages_of_calls (clock : Instant) (store : StoreRef) (calls : List StoreCall) (q : Query)
    (hvalid : q.validate = .ok ()) :
    ∃ whole, (((start clock).serve store calls).memory store).Paged q whole :=
  ⟨_, (numbered_serve clock store calls).paged hvalid⟩

namespace Sample

def stateBody (name : String) : Json := Json.object [("state", Json.object [("name", .str name)])]

/-- Four jobs are filed, one of them again, and one that has expired is purged. -/
def filing : List StoreCall :=
  [.commit [.put ⟨"jobs", "a"⟩ (stateBody "Failed") none .absent,
      .put ⟨"jobs", "b"⟩ (stateBody "Succeeded") none .absent],
    .commit [.put ⟨"jobs", "c"⟩ (stateBody "Failed") none .absent,
      .put ⟨"jobs", "d"⟩ (stateBody "Failed") (some .origin) .absent],
    .commit [.put ⟨"jobs", "a"⟩ (stateBody "Failed") none (.exact 1)],
    .purge .origin 10]

def failed : Query :=
  { (Query.ofCollection "jobs").filter "state.name" (.equals (.str "Failed")) with
    order := .newestFirst }

end Sample

theorem failed_jobs_paged : Sample.failed.validate = .ok () ∧
    ∃ whole, (((start .origin).serve ⟨0⟩ Sample.filing).memory ⟨0⟩).Paged
        Sample.failed whole ∧ whole.length = 2 := by
  have hvalid : Sample.failed.validate = .ok () := rfl
  refine ⟨hvalid, ?_⟩
  obtain ⟨whole, hpaged⟩ := pages_of_calls .origin ⟨0⟩ Sample.filing _ hvalid
  refine ⟨whole, hpaged, ?_⟩
  have hcount : ((((start .origin).serve ⟨0⟩ Sample.filing).memory ⟨0⟩).count
      (Sample.failed.cut 7 none)).toOption = some 2 := by
    decide +kernel
  rw [hpaged.counted] at hcount
  exact Option.some.inj hcount

end Simulation.World

end Jobyard
