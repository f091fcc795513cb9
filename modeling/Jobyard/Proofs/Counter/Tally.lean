import Jobyard.Proofs.Store.Counter
import Jobyard.Proofs.Transaction.Commit
import Jobyard.Proofs.Transaction.Revision

/-!
What the calls on counters make of a session. A counter that the session creates is held with the
sum of its calls; of any other counter the session holds the calls as increments. Either way the
commit adds the sum of the calls to what the store has.
-/

namespace Jobyard

abbrev Addition := String × Int

namespace Counter

def gain (key : String) : List Addition → Int
  | [] => 0
  | (other, delta) :: rest => (if other = key then delta else 0) + gain key rest

theorem gain_append (key : String) (calls more : List Addition) :
    gain key (calls ++ more) = gain key calls + gain key more := by
  induction calls with
  | nil => exact (Int.zero_add _).symm
  | cons first rest ih => rw [List.cons_append, gain, gain, ih, Int.add_assoc]

theorem gain_self (key : String) (delta : Int) : gain key [(key, delta)] = delta := by
  simp [gain]

theorem gain_of_ne {key other : String} (hne : other ≠ key) (delta : Int) :
    gain key [(other, delta)] = 0 := by
  simp [gain, hne]

/-- The document of a counter with this value; a missing one counts as zero. -/
def Carries (total : Int) : Option Stored → Prop
  | none => total = 0
  | some d => d.body = Document.encode (Counter.mk total)

inductive Increments (id : DocId) : List Write → Int → Prop
  | nil : Increments id [] 0
  | snoc {ws : List Write} {sum : Int} (delta : Int) (expiresAt : Option Instant)
      (h : Increments id ws sum) :
      Increments id (ws ++ [.increment id field delta expiresAt]) (sum + delta)

theorem Carries.increment {id : DocId} {total delta : Int} {expiresAt : Option Instant}
    {current final : Option Stored} (hcarries : Carries total current)
    (h : Memory.Rewrites [.increment id field delta expiresAt] current final) :
    Carries (total + delta) final := by
  obtain ⟨before, after, houtcome⟩ := Memory.rewrites_singleton h
  obtain ⟨d, rfl, hadded, _⟩ := Memory.outcome_increment houtcome
  cases current with
  | none =>
      change total = 0 at hcarries
      subst hcarries
      rw [Int.zero_add]
      exact (Except.ok.inj hadded).symm
  | some earlier =>
      rw [Option.map_some, Option.getD_some, show earlier.body = _ from hcarries] at hadded
      exact Memory.eq_of_addTo_encode hadded

theorem Increments.carries {id : DocId} {ws : List Write} {sum total : Int}
    {current final : Option Stored} (h : Increments id ws sum) (hcarries : Carries total current)
    (hrewrites : Memory.Rewrites ws current final) : Carries (total + sum) final := by
  induction h generalizing final with
  | nil =>
      rw [Memory.rewrites_nil hrewrites, Int.add_zero]
      exact hcarries
  | snoc delta expiresAt h ih =>
      obtain ⟨middle, hearlier, hlast⟩ := Memory.rewrites_append hrewrites
      rw [← Int.add_assoc]
      exact (ih hearlier).increment hlast

/-- What a session holds of one counter, the writes that it deferred for it, and the sum of its
calls. -/
inductive Tallied (id : DocId) : Tracked → List Write → Int → Prop
  | untouched {t : Tracked} (hetag : t.etag = none) (hbody : t.body = none)
      (hstatus : t.status = .unchanged) : Tallied id t [] 0
  | created {t : Tracked} {sum : Int} (hetag : t.etag = none)
      (hbody : t.body = some (Document.encode (Counter.mk sum))) (hstatus : t.status = .dirty) :
      Tallied id t [] sum
  | deferred {t : Tracked} {ws : List Write} {sum : Int} (hetag : t.etag ≠ none)
      (hbody : t.body ≠ none) (hstatus : t.status = .unchanged) (h : Increments id ws sum) :
      Tallied id t ws sum

variable {id : DocId} {t next : Tracked} {ws more : List Write} {sum delta : Int}
  {expiresAt : Option Instant}

theorem tallied_count (hetag : t.etag = none) (value : Int) (expiresAt : Option Instant) :
    Tallied id (t.count value expiresAt) [] value := by
  cases expiresAt with
  | none => exact .created hetag rfl rfl
  | some time => exact .created hetag rfl rfl

theorem id_of_add (hadd : t.add id delta expiresAt = .ok (next, more)) : ∀ w ∈ more, w.id = id := by
  intro w hw
  rcases Tracked.add_cases hadd with ⟨rfl, _⟩ | ⟨_, rfl, _⟩
  · cases hw
  · rw [List.mem_singleton.mp hw]
    rfl

theorem Tallied.add (h : Tallied id t ws sum)
    (hadd : t.add id delta expiresAt = .ok (next, more)) :
    Tallied id next (ws ++ more) (sum + delta) := by
  obtain ⟨found, hdecode, hfound⟩ := bind_eq_ok.mp hadd
  cases h with
  | untouched hetag hbody hstatus =>
      have hnone : t.decode Counter id = .ok none := by simp [Tracked.decode, hstatus, hbody]
      rw [hnone] at hdecode
      cases hdecode
      cases hfound
      rw [Int.zero_add]
      exact tallied_count hetag delta expiresAt
  | created hetag hbody hstatus =>
      simp only [Tracked.decode, hstatus, hbody] at hdecode
      split at hdecode
      · rename_i counter hcounter
        cases hdecode
        cases Counter.eq_of_decode?_encode hcounter
        simp only [hetag, Option.isNone_none, if_true] at hfound
        cases hfound
        exact tallied_count hetag _ expiresAt
      · cases hdecode
  | deferred hetag hbody hstatus hincrements =>
      obtain ⟨body, hbody⟩ := Option.ne_none_iff_exists'.mp hbody
      simp only [Tracked.decode, hstatus, hbody] at hdecode
      split at hdecode
      · cases hdecode
        simp only [Option.isNone_eq_false_iff.mpr (Option.isSome_iff_ne_none.mpr hetag),
          Bool.false_eq_true, if_false] at hfound
        cases hfound
        exact .deferred hetag (by simp [hbody]) hstatus (hincrements.snoc delta expiresAt)
      · cases hdecode

/-- A commit adds the sum of the calls, whatever happened to the counter since it was seen. -/
theorem Tallied.carries {total : Int} {current final : Option Stored} (h : Tallied id t ws sum)
    (hcarries : Carries total current)
    (hrewrites : Memory.Rewrites ((t.write? true id).toList ++ ws) current final) :
    Carries (total + sum) final := by
  cases h with
  | untouched hetag hbody hstatus =>
      simp only [Tracked.write?, hstatus, Option.toList_none, List.append_nil] at hrewrites
      rw [Memory.rewrites_nil hrewrites, Int.add_zero]
      exact hcarries
  | created hetag hbody hstatus =>
      simp only [Tracked.write?, hstatus, hbody, hetag, Option.map_some, Option.toList_some,
        List.append_nil] at hrewrites
      obtain ⟨before, after, houtcome⟩ := Memory.rewrites_singleton hrewrites
      obtain ⟨d, rfl, hbody, _⟩ := Memory.outcome_put houtcome
      -- The put demands that there is no counter, so that the sum of the calls is all there is.
      cases current with
      | some earlier => cases houtcome
      | none =>
          change total = 0 at hcarries
          subst hcarries
          rw [Int.zero_add]
          exact hbody
  | deferred hetag hbody hstatus hincrements =>
      simp only [Tracked.write?, hstatus, Option.toList_none, List.nil_append] at hrewrites
      exact hincrements.carries hcarries hrewrites

end Counter

namespace Session

open Counter

structure Tallies (store : StoreRef) (calls : List Addition) (s : Session) : Prop where
  store : s.store = store
  optimistic : s.optimistic = true
  distinct : s.Distinct
  tallied : ∀ key, Tallied (Document.idFor Counter key)
    ((s.find? (Document.idFor Counter key)).getD .unasked)
    (s.deferred.filter fun w => w.id = Document.idFor Counter key) (gain key calls)

variable {store : StoreRef} {calls : List Addition} {s : Session} {key : String}

theorem tallies_empty (store : StoreRef) : Tallies store [] (empty store true) where
  store := rfl
  optimistic := rfl
  distinct := distinct_empty store true
  tallied _ := .untouched rfl rfl rfl

theorem Tallies.amend (h : s.Tallies store calls) {delta : Int} {expiresAt : Option Instant}
    {t : Tracked} {writes : List Write}
    (hadd : ((s.find? (Document.idFor Counter key)).getD .unasked).add
      (Document.idFor Counter key) delta expiresAt = .ok (t, writes)) :
    (s.amend (Document.idFor Counter key) t writes).Tallies store (calls ++ [(key, delta)]) where
  store := h.store
  optimistic := h.optimistic
  distinct := h.distinct.track _ t
  tallied other := by
    rw [find?_amend, gain_append]
    change Tallied _ _ ((s.deferred ++ writes).filter _) _
    rw [List.filter_append]
    by_cases hkey : other = key
    · subst hkey
      rw [if_pos rfl, gain_self, Option.getD_some,
        List.filter_eq_self.mpr fun w hw => decide_eq_true (id_of_add hadd w hw)]
      exact (h.tallied other).add hadd
    · have hne : Document.idFor Counter other ≠ Document.idFor Counter key :=
        fun heq => hkey (congrArg DocId.key heq)
      have hnone : writes.filter (fun w => w.id = Document.idFor Counter other) = [] :=
        List.filter_eq_nil_iff.mpr fun w hw => by simp [id_of_add hadd w hw, hne.symm]
      rw [if_neg hne, gain_of_ne (Ne.symm hkey), Int.add_zero, hnone, List.append_nil]
      exact h.tallied other

theorem Tallies.track (h : s.Tallies store calls)
    (hmissing : s.find? (Document.idFor Counter key) = none) (document : Option Stored) :
    (s.track (Document.idFor Counter key) (.ofLoaded document)).Tallies store calls where
  store := h.store
  optimistic := h.optimistic
  distinct := h.distinct.track _ _
  tallied other := by
    have hother := h.tallied other
    rw [find?_track]
    split
    · rename_i heq
      rw [heq] at hother ⊢
      rw [hmissing, Option.getD_none] at hother
      change Tallied _ _ (s.deferred.filter _) _
      generalize s.deferred.filter (fun w => w.id = Document.idFor Counter key) = ws at hother
      generalize gain other calls = sum at hother
      cases hother with
      | untouched =>
          cases document with
          | none => exact .untouched rfl rfl rfl
          | some d => exact .deferred (Option.some_ne_none _) (Option.some_ne_none _) rfl .nil
      | created _ _ hstatus => cases hstatus
      | deferred hetag => exact absurd rfl hetag
    · exact hother

theorem Tallies.absorb (h : s.Tallies store calls)
    (hmissing : s.find? (Document.idFor Counter key) = none) (loaded : List (Option Stored)) :
    (s.absorb ([Document.idFor Counter key].zip loaded)).Tallies store calls := by
  cases loaded with
  | nil => exact h
  | cons document rest => exact h.track hmissing document

theorem Tallies.carries {m next : Memory} {total : Int} (h : s.Tallies store calls)
    (hcommit : m.commit s.batch = .ok next)
    (hcarries : Carries total (m.find? (Document.idFor Counter key))) :
    Carries (total + gain key calls) (next.find? (Document.idFor Counter key)) := by
  have hrewrites := rewrites_of_commit h.distinct hcommit (Document.idFor Counter key)
  have hwrite : ((s.find? (Document.idFor Counter key)).bind fun t =>
      t.write? s.optimistic (Document.idFor Counter key)) =
        ((s.find? (Document.idFor Counter key)).getD .unasked).write? true
          (Document.idFor Counter key) := by
    rw [h.optimistic]
    cases s.find? (Document.idFor Counter key) <;> rfl
  rw [hwrite] at hrewrites
  exact (h.tallied key).carries hcarries hrewrites

end Session

end Jobyard
