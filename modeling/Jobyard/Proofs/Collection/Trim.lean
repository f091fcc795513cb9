import Jobyard.Connection.Collection
import Jobyard.Proofs.Collection.Slice
import Jobyard.Proofs.Counter.Convergence
import Jobyard.Proofs.Document.RoundTrip
import Jobyard.Proofs.Transaction.Revising
import Mathlib.Algebra.Group.Nat.Defs

/-!
Lists that are read in parts and lists that are trimmed. What is read of a range is what trimming
the list to this range leaves of it, and a list of which nothing is left is gone.
-/

namespace Jobyard

namespace ValueList

/-- The body of a list of some values. Without a body there are no values. -/
def Holds (values : List String) : Option Json → Prop
  | none => values = []
  | some body => Document.decode? body = some (ValueList.mk values)

structure Leaves (values : List String) (body : Option Json) : Prop where
  holds : Holds values body
  missing : body = none ↔ values = []

theorem Holds.read {values : List String} {body : Option Json} (h : Holds values body)
    (id : DocId) :
    ∃ found, Document.read ValueList id body = .ok found ∧
      found.getD FindOrCreate.blank = ⟨values⟩ := by
  cases body with
  | none => exact ⟨none, rfl, congrArg ValueList.mk (Eq.symm h)⟩
  | some body =>
      refine ⟨some ⟨values⟩, ?_, rfl⟩
      simp only [Document.read, show Document.decode? body = some (ValueList.mk values) from h]

theorem leaves_encode (values : List String) :
    Leaves values
      (if values.isEmpty then none else some (Document.encode (ValueList.mk values))) := by
  cases values with
  | nil => exact ⟨rfl, iff_of_true rfl rfl⟩
  | cons first rest => exact ⟨(ValueList.mk (first :: rest)).lasting, by simp⟩

end ValueList

namespace Edit

variable {now : Instant} {key : String} {c : Option Content} {values : List String}

def trims (key : String) (ranges : List (Nat × Nat)) : List Edit :=
  ranges.map fun range => trimList key range.1 range.2

theorem apply_trimList (now : Instant) (key : String)
    (h : ValueList.Holds values (c.map (·.body))) (first last : Nat) :
    ∃ next, (trimList key first last).apply now c = .ok next ∧
      ValueList.Leaves (slice first last values) (next.map (·.body)) := by
  obtain ⟨found, hread, hfound⟩ := h.read (trimList key first last).id
  have halter : (trimList key first last).alter now (c.map (·.body)) =
      .ok (if (slice first last values).isEmpty then none
        else some (Document.encode (ValueList.mk (slice first last values)))) := by
    simp only [alter, alter.changedOrDropped, hread, bind, Except.bind, hfound, ValueList.trim]
  unfold apply
  rw [halter]
  refine ⟨_, rfl, ?_⟩
  rw [Option.map_map]
  exact Option.map_id' ▸ ValueList.leaves_encode _

theorem applyAll_trims (h : ValueList.Holds values (c.map (·.body))) (first : Nat × Nat)
    (rest : List (Nat × Nat)) :
    ∃ final, applyAll now (trims key (first :: rest)) c = .ok final ∧
      ValueList.Leaves
        ((first :: rest).foldl (fun values range => slice range.1 range.2 values) values)
        (final.map (·.body)) := by
  induction rest generalizing first c values with
  | nil =>
      obtain ⟨next, happly, hleaves⟩ := apply_trimList now key h first.1 first.2
      exact ⟨next, applyAll_singleton.trans happly, hleaves⟩
  | cons second rest ih =>
      obtain ⟨next, happly, hleaves⟩ := apply_trimList now key h first.1 first.2
      obtain ⟨final, hfinal, hlast⟩ := ih hleaves.holds second
      refine ⟨final, ?_, hlast⟩
      change applyAll now (trimList key first.1 first.2 :: trims key (second :: rest)) c = _
      rw [applyAll_cons, happly]
      exact hfinal

end Edit

namespace Simulation.World

open Transaction

variable {w : World} {c : Connection} {key : String} {values : List String}

/-- The store has a list of some values, or there are none and it has no list. -/
def HasList (w : World) (store : StoreRef) (key : String) (values : List String) : Prop :=
  ValueList.Holds values (((w.memory store).find? (Document.idFor ValueList key)).map (·.body))

/-- Trimming a list to some ranges, one after the other, goes well in one transaction and in one
each. It leaves a list of some values, and no list exactly if there are none. -/
def TrimsTo (w : World) (c : Connection) (key : String) (ranges : List (Nat × Nat))
    (values : List String) : Prop :=
  ∀ trimming ∈ [grouped c.store c.routing (Edit.trims key ranges),
      separate c.store c.routing (Edit.trims key ranges)],
    ∃ after, w.run trimming.run = (.ok (), after) ∧ after.HasList c.store key values ∧
      ((after.memory c.store).find? (Document.idFor ValueList key) = none ↔ values = [])

theorem run_listValues (hcalm : w.Calm) (h : w.HasList c.store key values) :
    w.run (c.listValues key).run = (.ok values, w) := by
  obtain ⟨found, hread, hfound⟩ := h.read (Document.idFor ValueList key)
  have hload := run_connection_load hcalm c ValueList key
  rw [Tracked.decode_eq_read, ← Tracked.body?_ofLoaded, Option.map_map] at hload
  refine (run_action_bind (hload.trans (congrArg (·, w) hread)) _).trans ?_
  cases found with
  | none => exact congrArg (fun l : ValueList => (Except.ok l.values, w)) hfound
  | some l => exact congrArg (fun l : ValueList => (Except.ok l.values, w)) hfound

theorem run_listRange (hcalm : w.Calm) (h : w.HasList c.store key values) (first last : Nat) :
    w.run (c.listRange key first last).run = (.ok (slice first last values), w) :=
  run_action_bind (run_listValues hcalm h) _

theorem run_mapM_of_reads {α β : Type} {f : α → Action β} {g : α → β} (xs : List α)
    (h : ∀ x, w.run (f x).run = (.ok (g x), w)) : w.run (xs.mapM f).run = (.ok (xs.map g), w) := by
  induction xs with
  | nil => rfl
  | cons x rest ih =>
      rw [List.mapM_cons, run_action_bind (h x), run_action_bind ih]
      rfl

theorem trimsTo_foldl (hcalm : w.Calm) (h : w.HasList c.store key values) (first : Nat × Nat)
    (rest : List (Nat × Nat)) :
    w.TrimsTo c key (first :: rest)
      ((first :: rest).foldl (fun values range => slice range.1 range.2 values) values) := by
  have hcontent : ValueList.Holds values
      (((w.memory c.store).content? (Document.idFor ValueList key)).map (·.body)) := by
    rw [Memory.content?, Option.map_map]
    exact h
  obtain ⟨final, hfinal, hleaves⟩ := Edit.applyAll_trims hcontent first rest
  intro trimming htrimming
  have hedits : ∀ e ∈ Edit.trims key (first :: rest),
      e.id = Document.idFor ValueList key ∧ e.IsRevision := by
    intro e he
    obtain ⟨range, _, rfl⟩ := List.mem_map.mp he
    exact ⟨rfl, rfl, rfl⟩
  obtain ⟨after, hrun, hbody⟩ := run_revisions c.routing hcalm (fun e he => (hedits e he).1)
    (fun e he => (hedits e he).2) hfinal trimming htrimming
  rw [← hbody] at hleaves
  exact ⟨after, hrun, hleaves.holds, Option.map_eq_none_iff.symm.trans hleaves.missing⟩

/-- A range of a list is read as the values that stand in it, in their order, and trimming the list
to the range leaves these; it does not matter that they are counted in numbers up to a limit, which
the list does not exceed. Pages of one size that reach the end of the list are the list, and a list
that is trimmed twice is the part that one read gives. -/
theorem listRange_eq_trimmed (hcalm : w.Calm) (hlist : w.HasList c.store key values) :
    (∀ first last, ∃ range, w.run (c.listRange key first last).run = (.ok range, w) ∧
      (∀ i, range[i]? = if first + i ≤ last then values[first + i]? else none) ∧
      w.TrimsTo c key [(first, last)] range ∧
      ∀ limit, values.length ≤ limit → range = saturatedSlice limit first last values) ∧
    (∀ size pages, 1 ≤ size → values.length ≤ pages * size → ∃ parts,
      w.run ((List.range pages).mapM fun page =>
        c.listRange key (page * size) (page * size + size - 1)).run = (.ok parts, w) ∧
      parts.flatten = values) ∧
    ∀ first last next final, ∃ range,
      w.run (c.listRange key (first + next) (min last (first + final))).run = (.ok range, w) ∧
      w.TrimsTo c key [(first, last), (next, final)] range := by
  refine ⟨fun first last => ?_, fun size pages hsize hpages => ?_, fun first last next final => ?_⟩
  · exact ⟨_, run_listRange hcalm hlist first last, getElem?_slice values first last,
      trimsTo_foldl hcalm hlist (first, last) [],
      fun limit hlimit => (saturatedSlice_eq values hlimit first last).symm⟩
  · refine ⟨_, run_mapM_of_reads _ fun page => run_listRange hcalm hlist _ _, ?_⟩
    rw [← List.flatMap_def, flatMap_slice values hsize, List.take_of_length_le hpages]
  · refine ⟨_, run_listRange hcalm hlist _ _, ?_⟩
    rw [← slice_slice]
    exact trimsTo_foldl hcalm hlist (first, last) [(next, final)]

namespace Sample

def withList : World :=
  ((World.start .origin).apply ⟨0⟩ (.commit [.put (Document.idFor ValueList "log")
    (Document.encode (ValueList.mk ["1", "2", "3"])) none .absent])).2

end Sample

theorem listRange_eq_trimmed_log :
    let c := Sample.connection
    Sample.withList.HasList ⟨0⟩ "log" ["1", "2", "3"] ∧
      (∃ range, Sample.withList.run (c.listRange "log" 0 (2 ^ 64 - 1)).run =
          (.ok range, Sample.withList) ∧
        (∀ i, range[i]? = if 0 + i ≤ 2 ^ 64 - 1 then ["1", "2", "3"][0 + i]? else none) ∧
        Sample.withList.TrimsTo c "log" [(0, 2 ^ 64 - 1)] range ∧
        range = saturatedSlice (2 ^ 64 - 1) 0 (2 ^ 64 - 1) ["1", "2", "3"]) ∧
      ∃ parts, Sample.withList.run ((List.range 2).mapM fun page =>
          c.listRange "log" (page * 2) (page * 2 + 2 - 1)).run = (.ok parts, Sample.withList) ∧
        parts.flatten = ["1", "2", "3"] := by
  intro c
  have hlist : Sample.withList.HasList ⟨0⟩ "log" ["1", "2", "3"] :=
    (ValueList.mk ["1", "2", "3"]).lasting
  obtain ⟨hranges, hpages, _⟩ := listRange_eq_trimmed (c := c) ⟨rfl, rfl⟩ hlist
  obtain ⟨range, hrun, hvalues, htrims, hlimits⟩ := hranges 0 (2 ^ 64 - 1)
  exact ⟨hlist, ⟨range, hrun, hvalues, htrims, hlimits _ (by decide)⟩,
    hpages 2 2 (by decide) (by decide)⟩

end Simulation.World

end Jobyard
