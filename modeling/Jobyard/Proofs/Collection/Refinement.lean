import Jobyard.Proofs.Collection.Draft
import Jobyard.Proofs.Counter.Convergence

/-!
Transactions on collections, one at a time. What connections read after any of them is what the
edits of the committed ones make of plain values.
-/

namespace Jobyard

open Counter FindOrCreate

namespace Plain

theorem counters_foldl_apply (p : Plain) (edits : List Edit) (key : String) :
    (edits.foldl apply p).counters key =
      p.counters key + gain key (edits.flatMap Edit.additions) := by
  induction edits generalizing p with
  | nil => exact (Int.add_zero _).symm
  | cons e rest ih =>
      rw [List.foldl_cons, ih, counters_apply, List.flatMap_cons, gain_append, Int.add_assoc]

end Plain

namespace Simulation

/-- The edits of one transaction, each with a reading of the clock, and whether it is committed in
the end. -/
structure Undertaking where
  edits : List (Instant × Edit)
  committed : Bool

structure Undertaking.Settlement where
  done : List Edit
  result : Option (Except StoreError Unit)

namespace Undertaking

/-- Of these edits all went well, but for additions. -/
structure Done (edits : List (Instant × Edit)) (done : List Edit) : Prop where
  sublist : done.Sublist (edits.map Prod.snd)
  others : (done.filter fun e => !e.isAddition) =
    (edits.map Prod.snd).filter fun e => !e.isAddition

variable {edits : List (Instant × Edit)} {done : List Edit} (time : Instant) {e : Edit}

theorem Done.well (h : Done edits done) (e : Edit) : Done ((time, e) :: edits) (e :: done) where
  sublist := h.sublist.cons_cons e
  others := by
    rw [List.map_cons, List.filter_cons, List.filter_cons, h.others]

theorem Done.failed (h : Done edits done) (hadds : e.isAddition) :
    Done ((time, e) :: edits) done where
  sublist := h.sublist.cons e
  others := by
    rw [List.map_cons, List.filter_cons_of_neg (by simp [hadds]), h.others]

structure Settles (u : Undertaking) (x : Settlement) : Prop where
  done : Done u.edits x.done
  result : x.result.isSome = u.committed

end Undertaking

def settle (p : Plain) : Undertaking.Settlement → Plain
  | ⟨done, some (.ok _)⟩ => done.foldl Plain.apply p
  | _ => p

namespace World

def editEach (w : World) (t : Transaction) :
    List (Instant × Edit) → List Edit × Transaction × World
  | [] => ([], t, w)
  | (time, e) :: rest =>
    let ((result, t), w) := World.run { w with clock := time } (e.step.start t)
    let (done, last) := w.editEach t rest
    (if result.isOk then e :: done else done, last)

def undertake (w : World) (c : Connection) (u : Undertaking) : Undertaking.Settlement × World :=
  let (done, t, w) := w.editEach c.transaction u.edits
  if u.committed then
    let ((result, _), w) := w.run (Step.commit.start t)
    (⟨done, some result⟩, w)
  else (⟨done, none⟩, w)

def undertakeAll (w : World) (c : Connection) :
    List Undertaking → List Undertaking.Settlement × World
  | [] => ([], w)
  | u :: rest =>
    let (settled, w) := w.undertake c u
    let (others, w) := w.undertakeAll c rest
    (settled :: others, w)

structure Shows (w : World) (store : StoreRef) (p : Plain) : Prop where
  calm : w.Calm
  shows : p.Shows fun id => ((w.memory store).find? id).map (·.body)
  carries : ∀ key,
    Counter.Carries (p.counters key) ((w.memory store).find? (Document.idFor Counter key))

variable {w : World} {store : StoreRef} {p : Plain} {c : Connection} {key : String}

theorem shows_start (clock : Instant) (store : StoreRef) : (start clock).Shows store .empty where
  calm := calm_start clock
  shows := ⟨fun _ => rfl, fun _ => ScoredSet.finite_blank, fun _ => rfl, fun _ => rfl⟩
  carries _ := rfl

theorem Shows.follows {next : World} (h : w.Shows store p)
    (hfollows : Follows w next store (w.memory store)) : next.Shows store p where
  calm := hfollows.calm h.calm
  shows := by
    rw [hfollows.memory]
    exact h.shows
  carries := by
    rw [hfollows.memory]
    exact h.carries

/-- Edits leave the store alone and lead the session to the plain values that they make; an edit on
plain values goes well. -/
theorem drafts_editEach {edits : List (Instant × Edit)} {m : Memory} {t : Transaction}
    {calls : List Addition} (hcalm : w.Calm) (hmemory : w.memory store = m)
    (h : t.session.Drafts p m store calls) (hplain : ∀ entry ∈ edits, entry.2.IsPlain) :
    let (done, last, next) := w.editEach t edits
    next.Calm ∧ next.memory store = m ∧
      last.session.Drafts (done.foldl Plain.apply p) m store
        (calls ++ done.flatMap Edit.additions) ∧
      Undertaking.Done edits done := by
  induction edits generalizing w t p calls with
  | nil =>
      refine ⟨hcalm, hmemory, ?_, .slnil, rfl⟩
      rw [List.flatMap_nil, List.append_nil]
      exact h
  | cons entry rest ih =>
      obtain ⟨time, e⟩ := entry
      have hclock : World.Calm { w with clock := time } := ⟨hcalm.hooks, hcalm.deadline⟩
      have hrun := run_edit hclock e t
      rw [h.tallies.store] at hrun
      rw [show World.memory { w with clock := time } store = m from hmemory] at hrun
      have hact := h.act (hplain _ List.mem_cons_self) time
      have hrest : ∀ entry ∈ rest, entry.2.IsPlain :=
        fun entry hentry => hplain entry (List.mem_cons_of_mem _ hentry)
      have hedit : w.editEach t ((time, e) :: rest) =
          let (done, last) := World.editEach { w with clock := time }
            { t with session := (e.act time m t.session).2 } rest
          (if (e.act time m t.session).1.isOk then e :: done else done, last) := by
        simp only [editEach, hrun]
      rw [hedit]
      split at hact
      · rename_i hok
        obtain ⟨hcalm, hmemory, hdrafts, hdone⟩ := ih hclock hmemory
          (t := { t with session := (e.act time m t.session).2 }) hact hrest
        simp only [hok, if_true, List.foldl_cons, List.flatMap_cons, ← List.append_assoc]
        exact ⟨hcalm, hmemory, hdrafts, hdone.well time e⟩
      · rename_i hfailed
        have hadds : e.isAddition := by
          by_contra hother
          rw [Bool.not_eq_true] at hother
          obtain ⟨hok, _⟩ := h.alter (hplain _ List.mem_cons_self) hother time
          exact hfailed (by rw [hok]; rfl)
        obtain ⟨hcalm, hmemory, hdrafts, hdone⟩ := ih hclock hmemory
          (t := { t with session := (e.act time m t.session).2 }) hact hrest
        simp only [hfailed]
        exact ⟨hcalm, hmemory, hdrafts, hdone.failed time hadds⟩

theorem Shows.undertake {u : Undertaking} (h : w.Shows c.store p)
    (hplain : ∀ entry ∈ u.edits, entry.2.IsPlain) :
    (w.undertake c u).2.Shows c.store (settle p (w.undertake c u).1) ∧
      u.Settles (w.undertake c u).1 := by
  have hedits := drafts_editEach (t := c.transaction) (p := p) h.calm rfl
    (Session.drafts_empty c.store h.shows) hplain
  unfold World.undertake
  generalize w.editEach c.transaction u.edits = edited at hedits
  obtain ⟨done, t, next⟩ := edited
  obtain ⟨hcalm, hmemory, hdrafts, hdone⟩ := hedits
  have hstore := hdrafts.tallies.store
  have hkept : next.Shows c.store p :=
    ⟨hcalm, by rw [hmemory]; exact h.shows, by rw [hmemory]; exact h.carries⟩
  cases hcommitted : u.committed with
  | false => exact ⟨hkept, hdone, hcommitted.symm⟩
  | true =>
      simp only [if_true]
      cases hcommit : (w.memory c.store).commit t.session.batch with
      | error e =>
          rw [← hmemory, ← hstore] at hcommit
          obtain ⟨_, after, hrun, hfollows⟩ := run_commit_error hcalm hcommit
          rw [hrun]
          rw [hstore] at hfollows
          exact ⟨hkept.follows hfollows, hdone, hcommitted.symm⟩
      | ok last =>
          obtain ⟨hshows, hcarries⟩ := hdrafts.commit hcommit
          rw [← hmemory, ← hstore] at hcommit
          obtain ⟨_, after, hrun, hfollows⟩ := run_commit hcalm hcommit
          rw [hrun]
          rw [hstore] at hfollows
          refine ⟨⟨hfollows.calm hcalm, ?_, fun key => ?_⟩, hdone, hcommitted.symm⟩
          · rw [hfollows.memory]
            exact hshows
          · rw [hfollows.memory]
            change Counter.Carries ((done.foldl Plain.apply p).counters key) _
            rw [Plain.counters_foldl_apply]
            exact hcarries key _ (h.carries key)

theorem Shows.undertakeAll {undertakings : List Undertaking} (h : w.Shows c.store p)
    (hplain : ∀ u ∈ undertakings, ∀ entry ∈ u.edits, entry.2.IsPlain) :
    (w.undertakeAll c undertakings).2.Shows c.store
        ((w.undertakeAll c undertakings).1.foldl settle p) ∧
      List.Forall₂ Undertaking.Settles undertakings (w.undertakeAll c undertakings).1 := by
  induction undertakings generalizing w p with
  | nil => exact ⟨h, .nil⟩
  | cons u rest ih =>
      obtain ⟨hshows, hsettles⟩ := h.undertake (hplain u List.mem_cons_self)
      obtain ⟨hlast, hrest⟩ := ih hshows fun other hother =>
        hplain other (List.mem_cons_of_mem u hother)
      exact ⟨hlast, .cons hsettles hrest⟩

theorem Shows.load (h : w.Shows c.store p) {α : Type} [FindOrCreate α] {document : α}
    (hlasting : Document.Lasting document)
    (hstands : Stands document
      (((w.memory c.store).find? (Document.idFor α key)).map (·.body))) :
    ∃ found, w.run (c.load α key).run = (.ok found, w) ∧ found.getD blank = document := by
  obtain ⟨found, hread, hfound⟩ :=
    Document.read_of_stands hstands hlasting (Document.idFor α key)
  refine ⟨found, ?_, hfound⟩
  rw [run_connection_load h.calm, Tracked.decode_eq_read, ← hread]
  cases (w.memory c.store).find? (Document.idFor α key) <;> rfl

theorem Shows.scores (h : w.Shows c.store p) (key : String) :
    w.run (c.scores key).run = (.ok (p.sets key), w) := by
  obtain ⟨found, hrun, hfound⟩ := h.load (h.shows.finite key).lasting (h.shows.set key)
  have hscores : (found.map (·.scores)).getD ∅ = (found.getD blank).scores := by
    cases found <;> rfl
  unfold Connection.scores
  rw [run_action_bind hrun, hscores, hfound]
  rfl

theorem Shows.listValues (h : w.Shows c.store p) (key : String) :
    w.run (c.listValues key).run = (.ok (p.lists key), w) := by
  obtain ⟨found, hrun, hfound⟩ := h.load (ValueList.lasting _) (h.shows.list key)
  have hvalues : (found.map (·.values)).getD [] = (found.getD blank).values := by
    cases found <;> rfl
  unfold Connection.listValues
  rw [run_action_bind hrun, hvalues, hfound]
  rfl

theorem Shows.fields (h : w.Shows c.store p) (key : String) :
    ∃ found, w.run (c.fields key).run = (.ok found, w) ∧ found.getD ∅ = p.hashes key := by
  obtain ⟨found, hrun, hfound⟩ := h.load (FieldMap.lasting _) (h.shows.hash key)
  have hfields : (found.map (·.fields)).getD ∅ = (found.getD blank).fields := by
    cases found <;> rfl
  refine ⟨found.map (·.fields), ?_, by rw [hfields, hfound]⟩
  unfold Connection.fields
  rw [run_action_bind hrun]
  rfl

structure Reads (w : World) (c : Connection) (p : Plain) : Prop where
  setMembers : ∀ key, (w.run (c.setMembers key).run).1 = .ok (p.sets key).keys
  setSize : ∀ key, (w.run (c.setSize key).run).1 = .ok (p.sets key).size
  listSize : ∀ key, (w.run (c.listSize key).run).1 = .ok (p.lists key).length
  listValues : ∀ key, (w.run (c.listValues key).run).1 = .ok (p.lists key)
  fieldValue : ∀ key name,
    (w.run (c.fieldValue key name).run).1 = .ok ((p.hashes key).find? name)
  fieldCount : ∀ key, (w.run (c.fieldCount key).run).1 = .ok (p.hashes key).size
  counter : ∀ key, Json.least64 ≤ p.counters key → p.counters key ≤ Json.greatest64 →
    (w.run (c.counter key).run).1 = .ok (p.counters key)

theorem Shows.reads (h : w.Shows c.store p) : w.Reads c p where
  setMembers key := by
    unfold Connection.setMembers
    rw [run_action_bind (h.scores key)]
    rfl
  setSize key := by
    unfold Connection.setSize
    rw [run_action_bind (h.scores key)]
    rfl
  listSize key := by
    unfold Connection.listSize
    rw [run_action_bind (h.listValues key)]
    rfl
  listValues key := by rw [h.listValues]
  fieldValue key name := by
    obtain ⟨found, hrun, hfound⟩ := h.fields key
    unfold Connection.fieldValue
    rw [run_action_bind hrun, ← hfound]
    cases found <;> rfl
  fieldCount key := by
    obtain ⟨found, hrun, hfound⟩ := h.fields key
    unfold Connection.fieldCount
    rw [run_action_bind hrun, ← hfound]
    cases found <;> rfl
  counter key hleast hgreatest := by
    obtain ⟨found, hdecode, hvalue⟩ :=
      decode_of_carries (h.carries key) hleast hgreatest (Document.idFor Counter key)
    have hload := run_connection_load h.calm c Counter key
    rw [hdecode] at hload
    unfold Connection.counter
    rw [run_action_bind hload, hvalue]
    rfl

/-- After any transactions one at a time, connections read what the edits of the committed ones
make of plain values; no edit fails there but an addition, and none reaches more than the value that
it concerns. A transaction under way leaves its store as one that is dropped. -/
theorem reads_eq_plain (clock : Instant) (c : Connection) {undertakings : List Undertaking}
    (hplain : ∀ u ∈ undertakings, ∀ entry ∈ u.edits, entry.2.IsPlain) :
    ((start clock).undertakeAll c undertakings).2.Reads c
        (((start clock).undertakeAll c undertakings).1.foldl settle .empty) ∧
      List.Forall₂ Undertaking.Settles undertakings
        ((start clock).undertakeAll c undertakings).1 ∧
      ∀ (p : Plain) (e : Edit), p.ChangesOnly e.id (p.apply e) := by
  obtain ⟨hshows, hsettles⟩ := (shows_start clock c.store).undertakeAll hplain
  exact ⟨hshows.reads, hsettles, Plain.changesOnly_apply⟩

/-- The third transaction removes a set without looking at it and makes it again, so that its commit
fails; the fourth is dropped. -/
theorem reads_of_four :
    let c := Sample.connection
    let undertakings : List Undertaking :=
      [⟨[(.origin, .addToSet "a" "m" .zero), (.origin, .addRangeToSet "a" ["n", "o"]),
          (.origin, .appendToList "a" "x"), (.origin, .appendToList "a" "y"),
          (.origin, .appendToList "a" "z"), (.origin, .setFields "a" [("n", "1")]),
          (.origin, .addToCounter "a" 1 none)], true⟩,
        ⟨[(.origin, .removeFromSet "a" "m"), (.origin, .removeFromList "a" "y"),
          (.origin, .trimList "a" 1 7), (.origin, .removeHash "a"),
          (.origin, .addToCounter "a" 1 none)], true⟩,
        ⟨[(.origin, .removeSet "a"), (.origin, .addToSet "a" "p" .zero)], true⟩,
        ⟨[(.origin, .removeFromList "a" "z")], false⟩]
    (∀ u ∈ undertakings, ∀ entry ∈ u.edits, entry.2.IsPlain) ∧
      let last := ((start .origin).undertakeAll c undertakings).2
      (last.run (c.setMembers "a").run).1 = .ok ["n", "o"] ∧
        (last.run (c.listValues "a").run).1 = .ok ["z"] ∧
        (last.run (c.fieldCount "a").run).1 = .ok 0 ∧
        (last.run (c.counter "a").run).1 = .ok 2 := by
  intro c undertakings
  have hplain : ∀ u ∈ undertakings, ∀ entry ∈ u.edits, entry.2.IsPlain := by decide
  refine ⟨hplain, ?_⟩
  intro last
  obtain ⟨hreads, _⟩ := reads_eq_plain .origin c hplain
  have hcounter := hreads.counter "a" (by decide +kernel) (by decide +kernel)
  refine ⟨(hreads.setMembers "a").trans ?_, (hreads.listValues "a").trans ?_,
    (hreads.fieldCount "a").trans ?_, hcounter.trans ?_⟩ <;>
  exact congrArg Except.ok (by decide +kernel)

end World

end Simulation

end Jobyard
