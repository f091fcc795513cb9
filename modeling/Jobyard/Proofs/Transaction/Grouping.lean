import Jobyard.Proofs.Transaction.Reach

/-!
Edits in one transaction, and each in a transaction of its own. If the one transaction goes well,
so do the others, and every document ends with the same body. It ends with the same expiry unless
the document was gone in between: the one transaction then keeps the expiry that it had.
-/

namespace Jobyard

namespace Transaction

def grouped (store : StoreRef) (routing : Routing) (edits : List Edit) : Action Unit :=
  ExceptT.mk do
    let (result, _) ← ((do
      edits.forM Edit.step
      Step.commit : Step Unit).run).run (Transaction.start store routing)
    pure result

def separate (store : StoreRef) (routing : Routing) (edits : List Edit) : Action Unit :=
  edits.forM fun e => grouped store routing [e]

end Transaction

def Memory.content? (m : Memory) (id : DocId) : Option Content := (m.find? id).map Stored.content

namespace Edit

variable {now : Instant} {m : Memory} {e : Edit} {edits rest : List Edit} {s last : Session}

def concerning (id : DocId) (edits : List Edit) : List Edit := edits.filter fun e => e.id = id

theorem concerning_nil (id : DocId) : concerning id [] = [] := rfl

theorem concerning_cons_self (e : Edit) (rest : List Edit) :
    concerning e.id (e :: rest) = e :: concerning e.id rest :=
  List.filter_cons_of_pos (decide_eq_true rfl)

theorem concerning_cons_of_ne {id : DocId} (hne : e.id ≠ id) (rest : List Edit) :
    concerning id (e :: rest) = concerning id rest :=
  List.filter_cons_of_neg (by simpa using hne)

theorem concerning_append (id : DocId) (edits rest : List Edit) :
    concerning id (edits ++ rest) = concerning id edits ++ concerning id rest :=
  List.filter_append ..

theorem mem_concerning {id : DocId} : e ∈ concerning id edits ↔ e ∈ edits ∧ e.id = id := by
  unfold concerning
  rw [List.mem_filter, decide_eq_true_iff]

def Leads (now : Instant) (m : Memory) (edits : List Edit) : Prop :=
  ∀ id, ∃ c, applyAll now (concerning id edits) (m.content? id) = .ok c

def actAll (now : Instant) (m : Memory) : List Edit → Session → Except StoreError Session
  | [], s => .ok s
  | e :: rest, s =>
    match e.act now m s with
    | (.ok _, next) => actAll now m rest next
    | (.error failure, _) => .error failure

theorem actAll_cons (h : actAll now m (e :: rest) s = .ok last) :
    ∃ t writes, e.revise now (e.sight m s) = .ok (t, writes) ∧
      actAll now m rest (s.amend e.id t writes) = .ok last := by
  unfold actAll act at h
  cases hrevise : e.revise now (e.sight m s) with
  | error failure =>
      rw [hrevise] at h
      cases h
  | ok revised =>
      rw [hrevise] at h
      exact ⟨revised.1, revised.2, rfl, h⟩

theorem sight_eq (m : Memory) (s : Session) (rest : List Edit) :
    e.sight m s = (s.find? e.id).getD (opened (m.find? e.id) (e :: rest)) := by
  cases hremoval : e.isRemoval <;> simp [sight, opened, Session.seen, hremoval]

theorem filter_of_id (id : DocId) {writes : List Write}
    (h : ∀ w ∈ writes, ∃ field delta expiresAt, w = .increment e.id field delta expiresAt) :
    (writes.filter fun w => w.id = id) = if e.id = id then writes else [] := by
  split
  · rename_i hid
    refine List.filter_eq_self.mpr fun w hmem => ?_
    obtain ⟨_, _, _, rfl⟩ := h w hmem
    exact decide_eq_true hid
  · rename_i hid
    refine List.filter_eq_nil_iff.mpr fun w hmem => ?_
    obtain ⟨_, _, _, rfl⟩ := h w hmem
    exact fun hsame => hid (of_decide_eq_true hsame)

theorem reviseAll_of_actAll (h : actAll now m edits s = .ok last) (id : DocId) :
    ∃ t writes,
      reviseAll now (concerning id edits)
        ((s.find? id).getD (opened (m.find? id) (concerning id edits))) =
          .ok (t, writes) ∧
      (last.deferred.filter fun w => w.id = id) =
        (s.deferred.filter fun w => w.id = id) ++ writes ∧
      last.find? id = if (concerning id edits) = [] then s.find? id else some t := by
  induction edits generalizing s with
  | nil =>
      cases h
      exact ⟨_, [], rfl, (List.append_nil _).symm, rfl⟩
  | cons e rest ih =>
      obtain ⟨first, writes, hrevise, hrest⟩ := actAll_cons h
      have hwrites := filter_of_id id (succeeds_of_revise hrevise).2
      obtain ⟨t, more, hmore, hdeferred, hfound⟩ := ih hrest
      rw [Session.find?_amend] at hmore hfound
      rw [Session.amend, List.filter_append, hwrites] at hdeferred
      by_cases hid : e.id = id
      · subst hid
        rw [if_pos rfl] at hdeferred hmore hfound
        rw [concerning_cons_self, ← sight_eq]
        refine ⟨t, writes ++ more, ?_, by rw [hdeferred, List.append_assoc], ?_⟩
        · unfold reviseAll
          rw [hrevise]
          simp only [bind, Except.bind]
          rw [Option.getD_some] at hmore
          rw [hmore]
        · rw [if_neg (List.cons_ne_nil _ _), hfound]
          split
          · rename_i hnil
            rw [hnil] at hmore
            cases hmore
            rfl
          · rfl
      · rw [if_neg hid, List.append_nil] at hdeferred
        rw [if_neg (Ne.symm hid)] at hmore hfound
        rw [concerning_cons_of_ne hid]
        exact ⟨t, more, hmore, hdeferred, hfound⟩

theorem distinct_of_actAll (h : actAll now m edits s = .ok last) (hdistinct : s.Distinct) :
    last.Distinct ∧ last.optimistic = s.optimistic ∧ last.store = s.store := by
  induction edits generalizing s with
  | nil =>
      cases h
      exact ⟨hdistinct, rfl, rfl⟩
  | cons e rest ih =>
      obtain ⟨t, writes, _, hrest⟩ := actAll_cons h
      obtain ⟨hlast, hkept⟩ := ih hrest (hdistinct.track e.id t)
      exact ⟨hlast, hkept⟩

theorem reaches_of_commit {store : StoreRef} {next : Memory}
    (h : actAll now m edits (.empty store true) = .ok s) (hcommit : m.commit s.batch = .ok next)
    (id : DocId) :
    ∃ c, Reaches now (concerning id edits) (m.find? id) (next.find? id) c := by
  obtain ⟨hdistinct, hoptimistic, _⟩ := distinct_of_actAll h (Session.distinct_empty store true)
  obtain ⟨t, writes, hrevise, hdeferred, hfound⟩ := reviseAll_of_actAll h id
  have hrewrites := Session.rewrites_of_commit hdistinct hcommit id
  rw [hdeferred, hfound, hoptimistic] at hrewrites
  by_cases hnil : (concerning id edits) = []
  · rw [hnil] at hrevise ⊢
    cases hrevise
    rw [if_pos hnil] at hrewrites
    rw [Memory.rewrites_nil hrewrites]
    refine ⟨_, (parallel_start (Tracked.body?_ofLoaded (m.find? id))
      (Tracked.expiresAt_ofLoaded (m.find? id))).reaches ⟨?_, fun d hd => ?_⟩⟩
    · rw [← Tracked.body?_ofLoaded, Option.map_map]
      rfl
    · rw [Tracked.expiresAt_ofLoaded, hd]
      rfl
  · rw [if_neg hnil] at hrewrites
    exact exists_reaches hnil (fun e he => (mem_concerning.mp he).2) hrevise hrewrites

theorem exists_revise {stored : Option Stored} {c : Option Content}
    (h : e.apply now (stored.map Stored.content) = .ok c) :
    ∃ revised, e.revise now (opened stored [e]) = .ok revised := by
  obtain ⟨body, haltered, _⟩ := bind_eq_ok.mp h
  cases hremoval : e.isRemoval with
  | true => exact ⟨_, revise_of_isRemoval hremoval now _⟩
  | false =>
      rw [opened, hremoval, if_neg Bool.false_ne_true]
      rw [Tracked.body?_ofLoaded] at haltered
      cases hadds : e.isAddition with
      | false =>
          obtain ⟨revised, hrevise, hagrees⟩ := agrees_revise hadds now (.ofLoaded stored)
          rw [haltered] at hagrees
          obtain ⟨next, rfl, _⟩ := hagrees.of_altered
          exact ⟨_, hrevise⟩
      | true =>
          cases e with
          | addToCounter key delta length =>
              obtain ⟨found, hread, _⟩ := bind_eq_ok.mp haltered
              unfold revise Tracked.add
              rw [Tracked.decode_eq_read, hread]
              cases found with
              | none => exact ⟨_, rfl⟩
              | some counter =>
                  simp only [bind, Except.bind]
                  split <;> exact ⟨_, rfl⟩
          | _ => cases hadds

theorem not_revives_nil {start : Option Content} : ¬ Revives now start [] := by
  rintro ⟨before, after, hsplit, ⟨early, late, hearly, ⟨_, hpresent, _⟩, _⟩, hgone, _⟩
  obtain ⟨rfl, rfl⟩ := List.append_eq_nil_iff.mp hsplit.symm
  obtain ⟨rfl, rfl⟩ := List.append_eq_nil_iff.mp hearly.symm
  rw [hgone] at hpresent
  cases hpresent

theorem not_revives_singleton {start : Option Content} {content : Content}
    (h : e.apply now start = .ok (some content)) : ¬ Revives now start [e] := by
  rw [← List.nil_append [e], revives_concat, List.nil_append, applyAll_singleton, h]
  exact fun hor => hor.elim (fun hgone => nomatch hgone.2) fun hmore => not_revives_nil hmore.2

theorem Reaches.content {stored final : Option Stored} {c : Option Content}
    (h : Reaches now edits stored final c)
    (hrevives : c.isSome → ¬ Revives now (stored.map Stored.content) edits) :
    final.map Stored.content = c := by
  cases c with
  | none => exact Option.map_eq_none_iff.mpr (Option.map_eq_none_iff.mp h.body.symm)
  | some content =>
      obtain ⟨d, rfl, hd⟩ := Option.map_eq_some_iff.mp h.body.symm
      rw [Option.map_some, Stored.content, hd, ← (h.expiry content d rfl rfl).mpr (hrevives rfl)]

theorem actAll_singleton (store : StoreRef) {t : Tracked} {writes : List Write}
    (h : e.revise now (opened (m.find? e.id) [e]) = .ok (t, writes)) :
    actAll now m [e] (.empty store true) =
      .ok ((Session.empty store true).amend e.id t writes) := by
  have hsight : e.sight m (.empty store true) = opened (m.find? e.id) [e] := sight_eq m _ []
  simp only [actAll, act, hsight, h]

theorem batch_amend_empty (store : StoreRef) (id : DocId) (t : Tracked) (writes : List Write) :
    ((Session.empty store true).amend id t writes).batch =
      (t.write? true id).toList ++ writes := by
  cases hwrite : t.write? true id <;>
    simp [Session.batch, Session.amend, Session.track, Session.place, Session.empty, hwrite]

theorem meets_of_revise {t : Tracked} {writes : List Write} {w : Write}
    (hrevise : e.revise now (opened (m.find? e.id) [e]) = .ok (t, writes))
    (hguarded : t.Guarded (m.find? e.id)) (hwrite : t.write? true e.id = some w) : m.Meets w := by
  refine Classical.byContradiction fun hnot => ?_
  obtain ⟨hunknown, hpresent, _⟩ := (Tracked.unmet_iff hguarded).mp ⟨w, hwrite, hnot⟩
  have hknown := (succeeds_of_revise hrevise).1.known
  cases hremoval : e.isRemoval with
  | true =>
      rw [revise_of_isRemoval hremoval] at hrevise
      cases hrevise
      rw [Tracked.isPresent_drop] at hpresent
      cases hpresent
  | false =>
      rw [opened, hremoval, if_neg Bool.false_ne_true, hunknown] at hknown
      cases hstored : m.find? e.id <;> rw [hstored] at hknown <;> cases hknown

theorem exists_commit_plain {t : Tracked}
    (hrevise : e.revise now (opened (m.find? e.id) [e]) = .ok (t, [])) :
    ∃ next, m.commit ((t.write? true e.id).toList ++ []) = .ok next := by
  have hall : reviseAll now [e] (opened (m.find? e.id) [e]) = .ok (t, []) := by
    unfold reviseAll
    rw [hrevise]
    rfl
  obtain ⟨hguarded, _⟩ := guarded_of_reviseAll (List.cons_ne_nil e []) hall
  rw [List.append_nil]
  cases hwrite : t.write? true e.id with
  | none => exact ⟨m, Memory.commit_nil m⟩
  | some w =>
      obtain ⟨next, hnext⟩ := Memory.write_of_meets (Tracked.write?_eq_some hwrite).2
        (meets_of_revise hrevise hguarded hwrite)
      exact ⟨next, (Memory.commit_singleton m w).trans hnext⟩

theorem exists_commit_increment {id : DocId} {field : String} {delta : Int} {d : Stored}
    {sum : Json} (hfound : m.find? id = some d) (hadded : Memory.addTo d.body field delta = .ok sum)
    (expiresAt : Option Instant) :
    ∃ next, m.commit [.increment id field delta expiresAt] = .ok next := by
  rw [Memory.commit_singleton]
  simp only [Memory.write, Memory.outcome, Write.id, hfound, hadded, bind, Except.bind]
  exact ⟨_, rfl⟩

theorem exists_commit (store : StoreRef) {c : Option Content} {t : Tracked} {writes : List Write}
    (h : e.apply now (m.content? e.id) = .ok c)
    (hrevise : e.revise now (opened (m.find? e.id) [e]) = .ok (t, writes)) :
    ∃ next, m.commit ((Session.empty store true).amend e.id t writes).batch = .ok next := by
  rw [batch_amend_empty]
  cases hadds : e.isAddition with
  | false =>
      obtain rfl := (settles_of_not_addition hadds hrevise).1
      exact exists_commit_plain hrevise
  | true =>
      have hopened := hrevise
      rw [opened_of_isAddition hadds] at hopened
      cases hstored : m.find? e.id with
      | none =>
          rw [hstored] at hopened
          obtain rfl := (settles_of_new hadds Tracked.isNewCounter_absent hopened).1
          exact exists_commit_plain hrevise
      | some d =>
          rw [Memory.content?, hstored] at h
          rw [hstored] at hopened
          obtain ⟨rfl, key, delta, length, counter, rfl, rfl, hread⟩ :=
            increment_of_revise hadds rfl rfl hopened
          obtain ⟨body, haltered, _⟩ := bind_eq_ok.mp h
          change (addToCounter key delta length).alter now (some d.body) = _ at haltered
          rw [alter_addition hread] at haltered
          cases hadded : Memory.addTo d.body Counter.field delta with
          | error failure =>
              rw [hadded] at haltered
              cases haltered
          | ok sum => exact exists_commit_increment hstored hadded _

end Edit

namespace Simulation.World

open Transaction

variable {w last : World} {store : StoreRef} {routing : Routing} {edits : List Edit}

theorem run_step_bind {first : Step Unit} {t next : Transaction} {after : World}
    (h : w.run (first.start t) = ((.ok (), next), after)) (second : Step Unit) :
    w.run (Step.start (first >>= fun _ => second) t) = after.run (second.start next) := by
  rw [Step.start_bind, run_bind, h]

theorem run_step_bind_error {first : Step Unit} {t next : Transaction} {after : World}
    {e : StoreError} (h : w.run (first.start t) = ((.error e, next), after)) (second : Step Unit) :
    w.run (Step.start (first >>= fun _ => second) t) = ((.error e, next), after) := by
  rw [Step.start_bind, run_bind, h]
  rfl

theorem run_edits (hcalm : w.Calm) (edits : List Edit) (t : Transaction) :
    match Edit.actAll w.clock (w.memory t.session.store) edits t.session with
    | .ok s => w.run (Step.start (edits.forM Edit.step) t) = ((.ok (), { t with session := s }), w)
    | .error e =>
      ∃ failed, w.run (Step.start (edits.forM Edit.step) t) = ((.error e, failed), w) := by
  induction edits generalizing t with
  | nil => rfl
  | cons e rest ih =>
      have hrun := run_edit hcalm e t
      have hstore := e.store_act w.clock (w.memory t.session.store) t.session
      rw [show (e :: rest).forM Edit.step = (e.step >>= fun _ => rest.forM Edit.step) from rfl]
      unfold Edit.actAll
      match hact : e.act w.clock (w.memory t.session.store) t.session with
      | (.error failure, s) =>
          rw [hact] at hrun
          exact ⟨_, run_step_bind_error hrun _⟩
      | (.ok _, s) =>
          rw [hact] at hrun hstore
          have hrest := ih { t with session := s }
          rw [run_step_bind hrun]
          simp only at hrest hstore ⊢
          rwa [hstore] at hrest

theorem run_grouped_eq : w.run (grouped store routing edits).run =
    ((w.run (Step.start (do
        edits.forM Edit.step
        Step.commit) (Transaction.start store routing))).1.1,
      (w.run (Step.start (do
        edits.forM Edit.step
        Step.commit) (Transaction.start store routing))).2) := by
  change w.run (Step.start (do
    edits.forM Edit.step
    Step.commit) (Transaction.start store routing) >>= fun result => .done result.1) = _
  rw [run_bind]
  rfl

theorem run_grouped (routing : Routing) (hcalm : w.Calm) {s : Session} {next : Memory}
    (hact : Edit.actAll w.clock (w.memory store) edits (.empty store true) = .ok s)
    (hcommit : (w.memory store).commit s.batch = .ok next) :
    ∃ after, w.run (grouped store routing edits).run = (.ok (), after) ∧
      Follows w after store next := by
  have hstore := (Edit.distinct_of_actAll hact (Session.distinct_empty store true)).2.2
  change s.store = store at hstore
  have hrun := run_edits hcalm edits (Transaction.start store routing)
  change (match Edit.actAll w.clock (w.memory store) edits (.empty store true) with
    | .ok s => _
    | .error e => _) at hrun
  rw [hact] at hrun
  obtain ⟨committed, after, hcommitted, hfollows⟩ := run_commit hcalm
    (t := { Transaction.start store routing with session := s }) (by rwa [hstore])
  refine ⟨after, ?_, hstore ▸ hfollows⟩
  rw [run_grouped_eq, run_step_bind hrun, hcommitted]

theorem grouped_ok (hcalm : w.Calm)
    (h : (w.run (grouped store routing edits).run).1 = .ok ()) :
    ∃ s next, Edit.actAll w.clock (w.memory store) edits (.empty store true) = .ok s ∧
      (w.memory store).commit s.batch = .ok next ∧
      Follows w (w.run (grouped store routing edits).run).2 store next := by
  have hrun := run_edits hcalm edits (Transaction.start store routing)
  change (match Edit.actAll w.clock (w.memory store) edits (.empty store true) with
    | .ok s => _
    | .error e => _) at hrun
  cases hact : Edit.actAll w.clock (w.memory store) edits (.empty store true) with
  | error e =>
      rw [hact] at hrun
      obtain ⟨failed, hfailed⟩ := hrun
      rw [run_grouped_eq, run_step_bind_error hfailed] at h
      cases h
  | ok s =>
      cases hcommit : (w.memory store).commit s.batch with
      | ok next =>
          obtain ⟨after, hgrouped, hfollows⟩ := run_grouped routing hcalm hact hcommit
          rw [hgrouped]
          exact ⟨s, next, rfl, hcommit, hfollows⟩
      | error e =>
          have hstore := (Edit.distinct_of_actAll hact (Session.distinct_empty store true)).2.2
          change s.store = store at hstore
          obtain ⟨failed, after, hfailed, _⟩ := run_commit_error hcalm
            (t := { Transaction.start store routing with session := s }) (by rwa [hstore])
          rw [hact] at hrun
          rw [run_grouped_eq, run_step_bind hrun, hfailed] at h
          cases h

theorem run_single (store : StoreRef) (routing : Routing) (hcalm : w.Calm) {e : Edit}
    {c : Option Content}
    (h : e.apply w.clock ((w.memory store).content? e.id) = .ok c) :
    ∃ after next, w.run (grouped store routing [e]).run = (.ok (), after) ∧
      Follows w after store next ∧ next.content? e.id = c ∧
      ∀ other, other ≠ e.id →
        next.content? other = (w.memory store).content? other := by
  obtain ⟨⟨t, writes⟩, hrevise⟩ := Edit.exists_revise h
  obtain ⟨next, hcommit⟩ := Edit.exists_commit store h hrevise
  have hact := Edit.actAll_singleton store hrevise
  obtain ⟨after, hrun, hfollows⟩ := run_grouped routing hcalm hact hcommit
  refine ⟨after, next, hrun, hfollows, ?_, fun other hne => ?_⟩
  · obtain ⟨reached, hreaches⟩ := Edit.reaches_of_commit hact hcommit e.id
    rw [Edit.concerning_cons_self, Edit.concerning_nil] at hreaches
    cases hreaches.reached.symm.trans (Edit.applyAll_singleton.trans h)
    refine hreaches.content fun hsome => ?_
    obtain ⟨content, rfl⟩ := Option.isSome_iff_exists.mp hsome
    exact Edit.not_revives_singleton h
  · obtain ⟨reached, hreaches⟩ := Edit.reaches_of_commit hact hcommit other
    rw [Edit.concerning_cons_of_ne (Ne.symm hne), Edit.concerning_nil] at hreaches
    cases hreaches.reached
    exact hreaches.content fun _ => Edit.not_revives_nil

theorem run_separate (routing : Routing) (hcalm : w.Calm)
    (h : Edit.Leads w.clock (w.memory store) edits) :
    ∃ after next, w.run (separate store routing edits).run = (.ok (), after) ∧
      Follows w after store next ∧
      ∀ id, Edit.applyAll w.clock (Edit.concerning id edits)
        ((w.memory store).content? id) =
          .ok (next.content? id) := by
  induction edits generalizing w with
  | nil => exact ⟨w, w.memory store, rfl, follows_self w store, fun _ => rfl⟩
  | cons e rest ih =>
      obtain ⟨last, hfirst⟩ := h e.id
      rw [Edit.concerning_cons_self, Edit.applyAll_cons] at hfirst
      obtain ⟨c, happly, _⟩ := bind_eq_ok.mp hfirst
      obtain ⟨middle, m, hrun, hfollows, hself, hothers⟩ := run_single store routing hcalm happly
      -- What is left to do of a document starts from what the first edit left of it.
      have hstep : ∀ id, Edit.applyAll w.clock (Edit.concerning id (e :: rest))
          ((w.memory store).content? id) =
            Edit.applyAll w.clock (Edit.concerning id rest)
              (m.content? id) := by
        intro id
        by_cases hid : e.id = id
        · subst hid
          rw [Edit.concerning_cons_self, Edit.applyAll_cons, happly, hself]
          rfl
        · rw [Edit.concerning_cons_of_ne hid, hothers id (Ne.symm hid)]
      have hclock := hfollows.clock
      obtain ⟨after, next, hrest, hmore, hcontents⟩ := ih (w := middle) (hfollows.calm hcalm) (by
        rw [hclock, hfollows.memory]
        exact fun id => hstep id ▸ h id)
      rw [hclock, hfollows.memory] at hcontents
      refine ⟨after, next, ?_, hfollows.trans hmore, fun id => (hstep id).trans (hcontents id)⟩
      have hbind := run_action_bind hrun fun _ => separate store routing rest
      exact hbind.trans hrest

def documentAfter (w : World) (a : Action Unit) (store : StoreRef) (id : DocId) : Option Stored :=
  ((w.run a.run).2.memory store).find? id

/-- Done one by one, some edits leave a document with an expiry, some more leave no document and
all of them leave one again; and since the expiry was there no edit has set it. -/
def Revived (w : World) (store : StoreRef) (routing : Routing) (edits : List Edit) (id : DocId) :
    Prop :=
  ∃ before between after, edits = before ++ between ++ after ∧
    ((w.documentAfter (separate store routing before) store id).bind (·.expiresAt)).isSome ∧
    w.documentAfter (separate store routing (before ++ between)) store id = none ∧
    (w.documentAfter (separate store routing edits) store id).isSome ∧
    ∀ e ∈ between ++ after, e.id = id → e.dated w.clock = none

theorem documentAfter_separate (routing : Routing) (hcalm : w.Calm)
    (h : Edit.Leads w.clock (w.memory store) edits) (id : DocId) :
    Edit.applyAll w.clock (Edit.concerning id edits) ((w.memory store).content? id) =
      .ok ((w.documentAfter (separate store routing edits) store id).map Stored.content) := by
  obtain ⟨after, next, hrun, hfollows, hcontents⟩ := run_separate routing hcalm h
  unfold documentAfter
  rw [hrun, hfollows.memory]
  exact hcontents id

theorem documentAfter_prefix {rest : List Edit} (routing : Routing) (hcalm : w.Calm)
    (h : Edit.Leads w.clock (w.memory store) (edits ++ rest)) (id : DocId) :
    Edit.applyAll w.clock (Edit.concerning id edits) ((w.memory store).content? id) =
      .ok ((w.documentAfter (separate store routing edits) store id).map Stored.content) := by
  refine documentAfter_separate routing hcalm (fun other => ?_) id
  obtain ⟨c, hc⟩ := h other
  rw [Edit.concerning_append, Edit.applyAll_append] at hc
  obtain ⟨middle, hmiddle, _⟩ := bind_eq_ok.mp hc
  exact ⟨middle, hmiddle⟩

theorem revives_of_revived {id : DocId} (hcalm : w.Calm)
    (h : Edit.Leads w.clock (w.memory store) edits) (hrevived : w.Revived store routing edits id) :
    Edit.Revives w.clock ((w.memory store).content? id) (Edit.concerning id edits) := by
  obtain ⟨before, between, after, rfl, hdated, hgone, _, hundated⟩ := hrevived
  have hbetween := documentAfter_prefix routing hcalm h id
  rw [List.append_assoc] at h
  have hbefore := documentAfter_prefix routing hcalm h id
  rw [hgone] at hbetween
  obtain ⟨time, htime⟩ := Option.isSome_iff_exists.mp hdated
  obtain ⟨d, hd, hexpiresAt⟩ := Option.bind_eq_some_iff.mp htime
  rw [hd] at hbefore
  refine ⟨_, Edit.concerning id after, Edit.concerning_append id (before ++ between) after,
    ⟨_, Edit.concerning id between, Edit.concerning_append id before between,
      ⟨d.content, hbefore, ?_⟩, fun e he => ?_⟩, hbetween, fun e he => ?_⟩
  · exact Option.isSome_iff_exists.mpr ⟨time, hexpiresAt⟩
  · obtain ⟨hmem, hid⟩ := Edit.mem_concerning.mp he
    exact hundated e (List.mem_append_left after hmem) hid
  · obtain ⟨hmem, hid⟩ := Edit.mem_concerning.mp he
    exact hundated e (List.mem_append_right between hmem) hid

theorem revived_of_revives {id : DocId} (hcalm : w.Calm)
    (h : Edit.Leads w.clock (w.memory store) edits)
    (hpresent : (w.documentAfter (separate store routing edits) store id).isSome)
    (hrevives : Edit.Revives w.clock ((w.memory store).content? id) (Edit.concerning id edits)) :
    w.Revived store routing edits id := by
  obtain ⟨first, last, hsplit, ⟨early, late, hfirst, ⟨content, hearly, hdated⟩, hlate⟩, hgone,
    hlast⟩ := hrevives
  obtain ⟨start, after, rfl, rfl, rfl⟩ := List.filter_eq_append_iff.mp hsplit
  obtain ⟨before, between, rfl, rfl, rfl⟩ := List.filter_eq_append_iff.mp hfirst
  have hbetween := documentAfter_prefix routing hcalm h id
  rw [List.append_assoc] at h
  have hbefore := documentAfter_prefix routing hcalm h id
  refine ⟨before, between, after, rfl, ?_, ?_, hpresent, fun e he hid => ?_⟩
  · obtain ⟨d, hd, rfl⟩ :=
      Option.map_eq_some_iff.mp (Except.ok.inj (hbefore.symm.trans hearly))
    rw [hd]
    exact hdated
  · exact Option.map_eq_none_iff.mp (Except.ok.inj (hbetween.symm.trans hgone))
  · rcases List.mem_append.mp he with hmem | hmem
    · exact hlate e (Edit.mem_concerning.mpr ⟨hmem, hid⟩)
    · exact hlast e (Edit.mem_concerning.mpr ⟨hmem, hid⟩)

/-- If edits go well in one transaction, they go well one by one, and every document ends with the
same body. It ends with the same expiry exactly if it was not revived. -/
theorem separate_of_grouped (hcalm : w.Calm)
    (hgrouped : (w.run (grouped store routing edits).run).1 = .ok ()) :
    (w.run (separate store routing edits).run).1 = .ok () ∧ ∀ id,
      (w.documentAfter (grouped store routing edits) store id).map (·.body) =
        (w.documentAfter (separate store routing edits) store id).map (·.body) ∧
      ((w.documentAfter (grouped store routing edits) store id).bind (·.expiresAt) =
        (w.documentAfter (separate store routing edits) store id).bind (·.expiresAt) ↔
          ¬ w.Revived store routing edits id) := by
  obtain ⟨s, next, hact, hcommit, hfollows⟩ := grouped_ok hcalm hgrouped
  have hreaches := Edit.reaches_of_commit hact hcommit
  have hleads : Edit.Leads w.clock (w.memory store) edits := by
    intro id
    obtain ⟨c, hc⟩ := hreaches id
    exact ⟨c, hc.reached⟩
  obtain ⟨after, last, hrun, _⟩ := run_separate routing hcalm hleads
  refine ⟨by rw [hrun], fun id => ?_⟩
  have hgroup : w.documentAfter (grouped store routing edits) store id = next.find? id := by
    unfold documentAfter
    rw [hfollows.memory]
  have hrevived : ∀ d, w.documentAfter (separate store routing edits) store id = some d →
      (Edit.Revives w.clock ((w.memory store).content? id) (Edit.concerning id edits) ↔
        w.Revived store routing edits id) := fun d hd =>
    ⟨revived_of_revives hcalm hleads (by rw [hd]; rfl), revives_of_revived hcalm hleads⟩
  obtain ⟨c, hreached, hbody, hexpiry⟩ := hreaches id
  cases hreached.symm.trans (documentAfter_separate routing hcalm hleads id)
  rw [hgroup]
  refine ⟨?_, ?_⟩
  · rw [← hbody, Option.map_map]
    rfl
  · cases hsingle : w.documentAfter (separate store routing edits) store id with
    | none =>
        rw [hsingle] at hbody
        rw [Option.map_eq_none_iff.mp hbody.symm]
        refine ⟨fun _ hrevived => ?_, fun _ => rfl⟩
        obtain ⟨_, _, _, _, _, _, hpresent, _⟩ := hrevived
        rw [hsingle] at hpresent
        cases hpresent
    | some d =>
        rw [hsingle] at hbody hexpiry
        obtain ⟨stored, hstored, _⟩ := Option.map_eq_some_iff.mp hbody.symm
        rw [hstored, ← hrevived d hsingle]
        exact eq_comm.trans (hexpiry d.content stored rfl hstored)

namespace Sample

def keeping : List Edit :=
  [.expireHash "a" (.ofSeconds 3600), .addToCounter "c" 2 none, .setFields "a" [("n", "2")],
    .addToCounter "c" 3 none]

def reviving : List Edit :=
  [.setFields "a" [("n", "1")], .expireHash "a" (.ofSeconds 3600), .removeHash "a",
    .setFields "a" [("n", "2")]]

end Sample

theorem separate_of_grouped_kept :
    (Sample.withHash.run (grouped ⟨0⟩ Sample.transaction.routing Sample.keeping).run).1 = .ok () ∧
      (Sample.withHash.run (separate ⟨0⟩ Sample.transaction.routing Sample.keeping).run).1 =
        .ok () ∧
      ∀ id,
        (Sample.withHash.documentAfter (grouped ⟨0⟩ Sample.transaction.routing Sample.keeping) ⟨0⟩
            id).map (·.body) =
          (Sample.withHash.documentAfter
            (separate ⟨0⟩ Sample.transaction.routing Sample.keeping) ⟨0⟩ id).map (·.body) := by
  have hgrouped : (Sample.withHash.run
      (grouped ⟨0⟩ Sample.transaction.routing Sample.keeping).run).1 = .ok () :=
    eq_ok_of_isOk (by decide +kernel)
  obtain ⟨hseparate, hdocuments⟩ := separate_of_grouped ⟨rfl, rfl⟩ hgrouped
  exact ⟨hgrouped, hseparate, fun id => (hdocuments id).1⟩

/-- A hash that is removed and made again keeps its expiry in one transaction only. -/
theorem expiry_kept_by_grouped :
    ¬ ∀ (w : World) (store : StoreRef) (routing : Routing) (edits : List Edit), w.Calm →
      (w.run (grouped store routing edits).run).1 = .ok () → ∀ id,
        (w.documentAfter (grouped store routing edits) store id).bind (·.expiresAt) =
          (w.documentAfter (separate store routing edits) store id).bind (·.expiresAt) := by
  intro hall
  have hok : ((World.start .origin).run
      (grouped ⟨0⟩ Sample.transaction.routing Sample.reviving).run).1 = .ok () :=
    eq_ok_of_isOk (by decide +kernel)
  have hgrouped : ((World.start .origin).documentAfter
      (grouped ⟨0⟩ Sample.transaction.routing Sample.reviving) ⟨0⟩
        (Document.idFor FieldMap "a")).bind (·.expiresAt) =
          some (Instant.origin.expiresIn (.ofSeconds 3600)) := by
    decide +kernel
  have hseparate : ((World.start .origin).documentAfter
      (separate ⟨0⟩ Sample.transaction.routing Sample.reviving) ⟨0⟩
        (Document.idFor FieldMap "a")).bind (·.expiresAt) = none := by
    decide +kernel
  have hsame := hall _ _ _ _ ⟨rfl, rfl⟩ hok (Document.idFor FieldMap "a")
  rw [hgrouped, hseparate] at hsame
  cases hsame

end Simulation.World

end Jobyard
