import Jobyard.Proofs.Queue.Task

/-!
What one turn does to the queue entries of a store. A turn creates, claims, requeues or removes
entries as its change says, or it leaves all of them as they are.
-/

namespace Jobyard.Simulation

def Holds (m : Memory) (id : DocId) (d : Stored) (entry : QueueEntry) : Prop :=
  m.find? id = some d ∧ Document.decode? d.body = some entry

def rewritten (d : Stored) (entry : QueueEntry) : Stored :=
  { d with body := Document.encode entry, etag := d.etag + 1 }

def Effect (m next : Memory) : Option Change → Prop
  | none => ∀ id, IsEntry id → next.find? id = m.find? id
  | some (.created entries) =>
    (entries.map (·.1)).Nodup ∧
      (∀ created ∈ entries, IsEntry created.1 ∧ m.find? created.1 = none ∧
        ∃ d, next.find? created.1 = some d ∧ d.body = Document.encode created.2 ∧
          d.expiresAt = none) ∧
      ∀ id, IsEntry id → id ∉ entries.map (·.1) → next.find? id = m.find? id
  | some (.claimed lease timeout) =>
    IsEntry lease.entryId ∧
      (∃ d entry now, Holds m lease.entryId d entry ∧ entry.isClaimable now timeout ∧
        lease.claimedAt = some now ∧
        next.find? lease.entryId = some (rewritten d (JobQueue.stamped entry now))) ∧
      ∀ id, id ≠ lease.entryId → next.find? id = m.find? id
  | some (.requeued l) =>
    (IsEntry l.entryId → ∃ d entry, Holds m l.entryId d entry ∧ entry.fetchedAt = l.claimedAt ∧
        next.find? l.entryId = some (rewritten d { entry with fetchedAt := none })) ∧
      ∀ id, id ≠ l.entryId → next.find? id = m.find? id
  | some (.removed l) =>
    (IsEntry l.entryId → ∃ d entry, Holds m l.entryId d entry ∧ entry.fetchedAt = l.claimedAt ∧
        next.find? l.entryId = none) ∧
      ∀ id, id ≠ l.entryId → next.find? id = m.find? id

abbrev Floor := Yard Task Outcome

namespace Floor

open Yard (Published)

structure Sound (store : StoreRef) (y : Floor) : Prop where
  calm : y.world.Calm
  keyed : (y.world.memory store).Keyed
  orderly : y.Orderly (Task.At store) (Task.allowed store) Task.ends
  apart : y.Apart
  /-- Entries can be read, never expire, and were created under fresh texts. -/
  entries : ∀ id d, IsEntry id → (y.world.memory store).find? id = some d →
    d.expiresAt = none ∧ (∃ entry : QueueEntry, Document.decode? d.body = some entry) ∧
      Published y id
  loads : ∀ n, ∀ exchange ∈ y.logAt n, ∀ id d, IsEntry id → exchange.Loads store id d →
    Published y id ∧ (y.world.memory store).Dates id d
  finds : ∀ n, ∀ exchange ∈ y.logAt n, ∀ id,
    exchange.Finds store (Document.collection QueueEntry) id → IsEntry id

theorem sound_start (store : StoreRef) (clock : Instant) : Sound store (Yard.start clock) where
  calm := World.calm_start clock
  keyed := Memory.keyed_empty
  orderly := Yard.orderly_start clock
  apart := Yard.apart_start clock
  entries _ _ _ h := nomatch h
  loads _ _ h := nomatch h
  finds _ _ h := nomatch h

variable {store : StoreRef} {y : Floor}

theorem Sound.current (hsound : Sound store y) {n : Nat} {id : DocId} {d current : Stored}
    (hentry : IsEntry id) (hloaded : ∃ exchange ∈ y.logAt n, exchange.Loads store id d)
    (hcurrent : (y.world.memory store).find? id = some current)
    (hetag : current.etag = d.etag) : d = current := by
  obtain ⟨exchange, hmem, hloads⟩ := hloaded
  exact (hsound.loads n exchange hmem id d hentry hloads).2.eq_of_etag hcurrent hetag

theorem Sound.isEntry_of_found (hsound : Sound store y) {n : Nat} {id : DocId}
    (hfound : JobQueue.Found store (y.logAt n) id) : IsEntry id := by
  obtain ⟨finding, hmem, hfinds⟩ := hfound
  exact hsound.finds n finding hmem id hfinds

theorem nodup_keys_entered {keys : List String} (entries : List QueueEntry)
    (hnodup : keys.Nodup) (hlength : keys.length = entries.length) :
    ((entered keys entries).map (·.1)).Nodup := by
  have hkeys : (entered keys entries).map (·.1) = keys.map (Document.idFor QueueEntry) :=
    List.map_fst_zip (by simp [hlength])
  rw [hkeys]
  exact List.pairwise_map.mpr (hnodup.imp fun hne heq => hne (congrArg DocId.key heq))

theorem isEntry_of_mem_entered {keys : List String} {entries : List QueueEntry}
    {created : DocId × QueueEntry} (h : created ∈ entered keys entries) : IsEntry created.1 := by
  obtain ⟨key, _, hid⟩ := List.mem_map.mp (List.of_mem_zip h).1
  rw [← hid]
  rfl

theorem commit_creations {m next : Memory} {entries : List (DocId × QueueEntry)}
    (h : m.commit (creations entries) = .ok next) (hnodup : (entries.map (·.1)).Nodup) :
    (∀ created ∈ entries, m.find? created.1 = none ∧
      ∃ d, next.find? created.1 = some d ∧ d.body = Document.encode created.2 ∧
        d.expiresAt = none) ∧
      ∀ id, id ∉ entries.map (·.1) → next.find? id = m.find? id := by
  induction entries generalizing m with
  | nil =>
      rw [show creations [] = [] from rfl, Memory.commit_nil] at h
      cases h
      exact ⟨fun _ h => (nomatch h), fun _ _ => rfl⟩
  | cons first rest ih =>
      obtain ⟨hnew, hrest⟩ := List.nodup_cons.mp hnodup
      change m.commit (.put first.1 (Document.encode first.2) none .absent ::
        creations rest) = _ at h
      rw [Memory.commit_cons] at h
      obtain ⟨middle, hwrite, hcommit⟩ := bind_eq_ok.mp h
      obtain ⟨habsent, ⟨d, hfound, hbody, hexpiry⟩, hothers⟩ := Memory.write_put_absent hwrite
      obtain ⟨hcreated, hkept⟩ := ih hcommit hrest
      constructor
      · intro created hmem
        rcases List.mem_cons.mp hmem with hfirst | hmore
        · rw [hfirst]
          exact ⟨habsent, d, (hkept _ hnew).trans hfound, hbody, hexpiry⟩
        · obtain ⟨hnone, hnext⟩ := hcreated created hmore
          have hne : created.1 ≠ first.1 := fun heq =>
            hnew (List.mem_map.mpr ⟨created, hmore, heq⟩)
          exact ⟨(hothers _ hne).symm.trans hnone, hnext⟩
      · intro id hid
        rw [List.map_cons, List.mem_cons, not_or] at hid
        exact (hkept id hid.2).trans (hothers id hid.1)

section Writes

variable {n : Nat} {log : Log} {exchange : Exchange} {batch : Batch} {next : Memory}

theorem effect_claimed {q : JobQueue} {lease : Lease} (hsound : Sound store y)
    (hlog : y.logAt n = log) (hstore : q.store = store)
    (hends : q.Ends (exchange :: log) (some lease)) (haccepted : exchange.accepted? = some batch)
    (hcommit : (y.world.memory store).commit batch = .ok next) :
    Effect (y.world.memory store) next (some (.claimed lease q.invisibility)) := by
  obtain ⟨last, earlier, id, d, entry, now, heq, _, hsees, hbatch, rfl⟩ := hends
  cases heq
  rw [haccepted] at hbatch
  cases hbatch
  subst hlog hstore
  have hentry : IsEntry id := hsound.isEntry_of_found hsees.found
  obtain ⟨current, hfound, hetag, hnext, hothers⟩ := Memory.commit_put_exact hcommit
  have hsame := hsound.current hentry hsees.loaded hfound hetag
  subst hsame
  exact ⟨hentry, ⟨d, entry, now, ⟨hfound, hsees.decoded⟩, hsees.claimable, rfl, hnext⟩, hothers⟩

theorem effect_requeued {l : Lease} {d : Stored} {entry : QueueEntry} (hsound : Sound store y)
    (hlog : y.logAt n = log) (hstore : l.store = store) (howns : l.Owns log d entry)
    (hcommit : (y.world.memory store).commit [l.returned d entry] = .ok next) :
    Effect (y.world.memory store) next (some (.requeued l)) := by
  subst hlog hstore
  obtain ⟨current, hfound, hetag, hnext, hothers⟩ := Memory.commit_put_exact hcommit
  refine ⟨fun hentry => ?_, hothers⟩
  have hsame := hsound.current hentry howns.loaded hfound hetag
  subst hsame
  exact ⟨d, entry, ⟨hfound, howns.decoded⟩, howns.stamp, hnext⟩

theorem effect_removed {l : Lease} {d : Stored} {entry : QueueEntry} (hsound : Sound store y)
    (hlog : y.logAt n = log) (hstore : l.store = store) (howns : l.Owns log d entry)
    (hcommit : (y.world.memory store).commit [l.removal d entry] = .ok next) :
    Effect (y.world.memory store) next (some (.removed l)) := by
  subst hlog hstore
  obtain ⟨current, hfound, hetag, hnext, hothers⟩ := Memory.commit_delete_exact hcommit
  refine ⟨fun hentry => ?_, hothers⟩
  have hsame := hsound.current hentry howns.loaded hfound hetag
  subst hsame
  exact ⟨d, entry, ⟨hfound, howns.decoded⟩, howns.stamp, hnext⟩

theorem effect_created {entries : List QueueEntry} (hsound : Sound store y)
    (hlog : y.logAt n = log) (hlength : log.drawn.length = entries.length)
    (hbatch : log.drawn.Nodup → batch = creations (entered log.drawn.reverse entries))
    (hcommit : (y.world.memory store).commit batch = .ok next) :
    Effect (y.world.memory store) next (some (.created (entered log.drawn.reverse entries))) := by
  have hnodup : log.drawn.Nodup := hlog ▸ hsound.apart.nodup n
  rw [hbatch hnodup] at hcommit
  have hkeys : log.drawn.reverse.Nodup := List.pairwise_reverse.mpr (hnodup.imp Ne.symm)
  have hids := nodup_keys_entered entries hkeys (by rw [List.length_reverse, hlength])
  obtain ⟨hcreated, hkept⟩ := commit_creations hcommit hids
  refine ⟨hids, fun created hmem => ?_, fun id _ hid => hkept id hid⟩
  exact ⟨isEntry_of_mem_entered hmem, hcreated created hmem⟩

end Writes

theorem change?_of_unaccepted {task : Task} {exchange : Exchange} {log : Log}
    {rest : Program Outcome} (hunaccepted : exchange.accepted? = none)
    (hrest : rest.Conforms (task.allowed store) task.ends (exchange :: log)) :
    Thread.change? ⟨task, exchange :: log, rest⟩ = none := by
  have hlanded : Log.landed (exchange :: log) = false := by
    simp [Log.landed, hunaccepted]
  cases task with
  | dequeue q queues token limit =>
      match rest with
      | .call _ _ => rfl
      | .done (.error _) => rfl
      | .done (.ok none) => rfl
      | .done (.ok (some lease)) =>
          obtain ⟨last, earlier, id, d, entry, now, heq, _, _, hbatch, _⟩ := hrest
          cases heq
          rw [hunaccepted] at hbatch
          cases hbatch
  | reap r rounds => rfl
  | other p => rfl
  | _ => simp only [Thread.change?, hlanded, Bool.false_eq_true, if_false]

theorem Sound.find?_purge (hsound : Sound store y) (now : Instant) (limit : Nat) (id : DocId)
    (hentry : IsEntry id) :
    ((y.world.memory store).purge now limit).1.find? id = (y.world.memory store).find? id := by
  cases hfound : (y.world.memory store).find? id with
  | none =>
      rcases (y.world.memory store).find?_purge now limit id with hnone | hsame
      · exact hnone
      · exact hsame.trans hfound
  | some d =>
      have hexpiry := (hsound.entries id d hentry hfound).1
      exact Memory.find?_purge_of_unexpiring hsound.keyed hfound hexpiry now limit

theorem not_allowed_destroy (task : Task) (hat : task.At store) (log : Log) :
    ¬ task.allowed store log (.store store .destroy) := by
  intro hallowed
  cases task with
  | dequeue q queues token limit => exact hallowed.2.2
  | reap r rounds => exact hallowed rfl
  | other p => exact hallowed rfl
  | _ => exact hallowed

theorem lease_of_accepted {q : JobQueue} {log : Log} {rest : Program Outcome}
    (hcommitted : log.Committed)
    (hrest : rest.Conforms q.Asks (fun log outcome => q.Ends log (JobQueue.leaseOf outcome)) log) :
    ∃ lease, rest = .done (.ok (some lease)) ∧ q.Ends log (some lease) := by
  match rest with
  | .call request next => exact absurd hcommitted hrest.1.1
  | .done (.error e) => exact absurd hcommitted hrest
  | .done (.ok none) => exact absurd hcommitted hrest
  | .done (.ok (some lease)) => exact ⟨lease, rfl, hrest⟩

theorem effect_spared {target : StoreRef} {batch : Batch} {w : World}
    (hspared : target = store → ∀ write ∈ batch, ¬ IsEntry write.id)
    (hcommit : (y.world.memory target).commit batch = .ok (w.memory target))
    (hothers : ∀ other, other ≠ target → w.memory other = y.world.memory other) :
    Effect (y.world.memory store) (w.memory store) none := by
  intro id hentry
  by_cases htarget : target = store
  · subst htarget
    apply Memory.find?_commit_of_forall_ne hcommit
    rintro write hmem rfl
    exact hspared rfl write hmem hentry
  · rw [hothers store (Ne.symm htarget)]

/-- Without an accepted batch a store can only purge, and a purge spares the entries. -/
theorem effect_of_unaccepted {task : Task} {log : Log} {request : Request} {reply : request.Reply}
    {w : World} (hsound : Sound store y) (hat : task.At store)
    (hallowed : task.allowed store log request) (hreacts : y.world.Reacts request reply w)
    (hunaccepted : Exchange.accepted? ⟨request, reply⟩ = none) :
    Effect (y.world.memory store) (w.memory store) none := by
  intro id hentry
  rcases World.memory_of_unaccepted hsound.calm hreacts hunaccepted store with
    hsame | ⟨now, limit, _, hpurged⟩ | hdestroy
  · rw [hsame]
  · rw [hpurged]
    exact hsound.find?_purge now limit id hentry
  · subst hdestroy
    exact absurd hallowed (not_allowed_destroy task hat log)

theorem effect_of_accepted {task : Task} {log : Log} {target : StoreRef} {batch : Batch}
    {reply : (Request.store target (.commit batch)).Reply} {rest : Program Outcome} {w : World}
    (hsound : Sound store y) (hlog : y.logAt n = log) (hat : task.At store)
    (hallowed : task.allowed store log (.store target (.commit batch)))
    (hrest : rest.Conforms (task.allowed store) task.ends
      (⟨.store target (.commit batch), reply⟩ :: log))
    (haccepted : Exchange.accepted? ⟨.store target (.commit batch), reply⟩ = some batch)
    (hcommit : (y.world.memory target).commit batch = .ok (w.memory target))
    (hothers : ∀ other, other ≠ target → w.memory other = y.world.memory other) :
    Effect (y.world.memory store) (w.memory store)
      (Thread.change? ⟨task, ⟨.store target (.commit batch), reply⟩ :: log, rest⟩) := by
  have hlanded : Log.landed (⟨.store target (.commit batch), reply⟩ :: log) = true := by
    simp [Log.landed, haccepted]
  cases task with
  | enqueue q queue jobId =>
      obtain ⟨rfl, _, hlength, hbatch⟩ := hallowed
      simp only [Thread.change?, hlanded, if_true]
      rw [Log.drawn_of_ne_freshText (by simp)]
      exact effect_created hsound hlog hlength hbatch hcommit
  | enqueueAll other routing jobs =>
      obtain ⟨rfl, _, hlength, hbatch⟩ := hallowed
      simp only [Thread.change?, hlanded, if_true]
      rw [Log.drawn_of_ne_freshText (by simp)]
      exact effect_created hsound hlog hlength hbatch hcommit
  | dequeue q queues token limit =>
      obtain ⟨_, rfl, _⟩ := hallowed
      have hcommitted : Log.Committed (⟨.store q.store (.commit batch), reply⟩ :: log) :=
        ⟨_, List.mem_cons_self, by rw [haccepted]; rfl⟩
      obtain ⟨lease, rfl, hends⟩ := lease_of_accepted hcommitted hrest
      cases hat
      exact effect_claimed hsound hlog rfl hends haccepted hcommit
  | acknowledge l =>
      obtain ⟨rfl, d, entry, howns, rfl⟩ := hallowed
      simp only [Thread.change?, hlanded, if_true]
      cases hat
      exact effect_removed hsound hlog rfl howns hcommit
  | abandon l =>
      obtain ⟨rfl, d, entry, howns, rfl⟩ := hallowed
      simp only [Thread.change?, hlanded, if_true]
      cases hat
      exact effect_requeued hsound hlog rfl howns hcommit
  | drop l =>
      obtain ⟨rfl, d, entry, howns, rfl⟩ := hallowed
      simp only [Thread.change?, hlanded, if_true]
      cases hat
      exact effect_requeued hsound hlog rfl howns hcommit
  | reap r rounds => exact effect_spared hallowed hcommit hothers
  | other p => exact effect_spared hallowed hcommit hothers

theorem effect_of_step {event : Event Task Outcome} {last : Floor} (hsound : Sound store y)
    (hstep : Yard.Step Task.program (Task.At store) y event last) :
    Effect (y.world.memory store) (last.world.memory store) event.change? := by
  cases hstep with
  | began n task hfree hadmits => exact fun _ _ => rfl
  | clocked time => exact fun _ _ => rfl
  | proceeded n task log request next reply w hthread hreacts =>
      obtain ⟨hat, hallowed, hnext⟩ := hsound.orderly n _ hthread
      change Effect (y.world.memory store) (w.memory store)
        (Thread.change? ⟨task, ⟨request, reply⟩ :: log, next reply⟩)
      cases haccepted : Exchange.accepted? ⟨request, reply⟩ with
      | none =>
          rw [change?_of_unaccepted haccepted (hnext reply)]
          exact effect_of_unaccepted hsound hat hallowed hreacts haccepted
      | some batch =>
          obtain ⟨target, rfl, hcommit, hothers⟩ :=
            World.commit_of_accepted hsound.calm hreacts haccepted
          exact effect_of_accepted hsound (Yard.logAt_of_threads hthread) hat hallowed
            (hnext reply) haccepted hcommit hothers

end Floor

end Jobyard.Simulation
