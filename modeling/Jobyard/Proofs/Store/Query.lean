import Jobyard.Proofs.Store.Answer

/-!
Results of queries. A query without a page returns the documents that it accepts, in the order of
their creation, in whatever order the store keeps them.
-/

namespace Jobyard

namespace Query

variable {q : Query}

theorem collection_of_accepts {d : Stored} (h : q.accepts d = true) :
    d.id.collection = q.collection :=
  beq_iff_eq.mp (Bool.and_eq_true_iff.mp h).1

theorem accepts_filter {dotted : String} {condition : Condition} {d : Stored} :
    (q.filter dotted condition).accepts d = true ↔
      q.accepts d = true ∧ Filter.accepts ⟨Filter.pathOf dotted, condition⟩ d.body = true := by
  simp only [accepts, filter, List.all_append, List.all_cons, List.all_nil, Bool.and_true,
    Bool.and_eq_true, and_assoc]

structure Whole (q : Query) : Prop where
  skip : q.skip = 0
  take : q.take = none

theorem Whole.finish (h : q.Whole) (documents : List Stored) :
    q.finish documents = documents.mergeSort q.comesFirst := by
  unfold Query.finish
  rw [h.skip, h.take]
  rfl

theorem comesFirst_trans (a b c : Stored) (hab : q.comesFirst a b = true)
    (hbc : q.comesFirst b c = true) : q.comesFirst a c = true := by
  unfold comesFirst at hab hbc ⊢
  cases horder : q.order with
  | oldestFirst =>
      rw [horder] at hab hbc
      exact decide_eq_true (Nat.le_trans (of_decide_eq_true hab) (of_decide_eq_true hbc))
  | newestFirst =>
      rw [horder] at hab hbc
      exact decide_eq_true (Nat.le_trans (of_decide_eq_true hbc) (of_decide_eq_true hab))

theorem comesFirst_total (a b : Stored) : (q.comesFirst a b || q.comesFirst b a) = true := by
  unfold comesFirst
  cases q.order with
  | oldestFirst =>
      exact Bool.or_eq_true_iff.mpr ((Nat.le_total _ _).imp decide_eq_true decide_eq_true)
  | newestFirst =>
      exact Bool.or_eq_true_iff.mpr ((Nat.le_total _ _).imp decide_eq_true decide_eq_true)

theorem pairwise_mergeSort (q : Query) (documents : List Stored) :
    (documents.mergeSort q.comesFirst).Pairwise fun a b => q.comesFirst a b = true :=
  List.pairwise_mergeSort comesFirst_trans comesFirst_total documents

theorem sequence_le_of_comesFirst (horder : q.order = .oldestFirst) {a b : Stored}
    (h : q.comesFirst a b = true) : a.sequence ≤ b.sequence := by
  unfold comesFirst at h
  rw [horder] at h
  exact of_decide_eq_true h

end Query

namespace Memory

variable {m : Memory} {q : Query}

theorem query_of_whole (hvalid : q.validate = .ok ()) (hwhole : q.Whole) :
    m.query q = .ok ((m.accepted q).mergeSort q.comesFirst) := by
  unfold query
  rw [hvalid, hwhole.finish]
  rfl

structure Lists (m : Memory) (q : Query) (found : List Stored) : Prop where
  mem_iff : ∀ d, d ∈ found ↔ m.find? d.id = some d ∧ q.accepts d = true
  sorted : found.Pairwise fun a b => a.sequence ≤ b.sequence

theorem exists_lists (hkeyed : m.Keyed) (hvalid : q.validate = .ok ()) (hwhole : q.Whole)
    (horder : q.order = .oldestFirst) : ∃ found, m.query q = .ok found ∧ m.Lists q found :=
  ⟨_, query_of_whole hvalid hwhole,
    fun _ => (List.mergeSort_perm _ _).mem_iff.trans (mem_accepted_iff hkeyed),
    (q.pairwise_mergeSort _).imp (Query.sequence_le_of_comesFirst horder)⟩

theorem Lists.oldest {found : List Stored} (h : m.Lists q found) {p : Stored → Bool} {d : Stored}
    (hfirst : found.find? p = some d) :
    d ∈ found ∧ p d = true ∧ ∀ e ∈ found, p e = true → d.sequence ≤ e.sequence := by
  obtain ⟨hp, before, after, hsplit, hbefore⟩ := List.find?_eq_some_iff_append.mp hfirst
  refine ⟨List.mem_of_find?_eq_some hfirst, hp, fun e he hpe => ?_⟩
  have hsorted := h.sorted
  rw [hsplit] at he hsorted
  rcases List.mem_append.mp he with hearlier | hlater
  · have hnot := hbefore e hearlier
    rw [hpe] at hnot
    cases hnot
  · rcases List.mem_cons.mp hlater with rfl | hrest
    · exact Nat.le_refl _
    · exact (List.pairwise_cons.mp (List.pairwise_append.mp hsorted).2.1).1 e hrest

theorem query_congr {other : Query} (hvalid : q.validate = .ok ())
    (hother : other.validate = .ok ()) (haccepts : ∀ d, q.accepts d = other.accepts d)
    (horder : q.order = other.order) (hskip : q.skip = other.skip) (htake : q.take = other.take) :
    m.query q = m.query other := by
  have haccepted : m.accepted q = m.accepted other :=
    congrArg m.documents.values.filter (funext haccepts)
  have hfirst : q.comesFirst = other.comesFirst := by
    funext a b
    unfold Query.comesFirst
    rw [horder]
  unfold query Query.finish
  rw [hvalid, hother, haccepted, hfirst, hskip, htake]

end Memory

end Jobyard
