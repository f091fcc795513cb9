import Jobyard.Proofs.Queue.History
import Mathlib.Data.List.Nodup
import Mathlib.Data.List.Pairwise

/-!
Delivery at least once. A producer that returned without a failure has created one document for
each of its jobs, and one that failed has created none. The document keeps its job, its queue and
its place in the order, and it stays until an acknowledgement removes it; nothing else removes it or
creates another one.
-/

namespace Jobyard.Simulation

open Change History

variable {store : StoreRef} {clock : Instant} {y last : Floor} {history more : History}

namespace History

def addedBy (n : Nat) : History → List (DocId × QueueEntry)
  | [] => []
  | .proceeded k thread :: earlier =>
    if k = n then added thread.change? ++ addedBy n earlier else addedBy n earlier
  | _ :: earlier => addedBy n earlier

theorem mem_addedBy {n : Nat} {created : DocId × QueueEntry} :
    created ∈ addedBy n history ↔
      ∃ thread, .proceeded n thread ∈ history ∧ created ∈ added thread.change? := by
  induction history with
  | nil => simp [addedBy]
  | cons event earlier ih =>
      cases event with
      | began k task => simp [addedBy, ih]
      | clocked time => simp [addedBy, ih]
      | proceeded k thread =>
          by_cases hk : k = n
          · subst hk
            simp [addedBy, ih, or_and_right, exists_or]
          · simp [addedBy, ih, hk, Ne.symm hk]

theorem mem_addedIn_iff {created : DocId × QueueEntry} :
    created ∈ addedIn history ↔ ∃ n, created ∈ addedBy n history := by
  simp only [mem_addedBy, addedIn, List.mem_flatMap]
  constructor
  · rintro ⟨event, hevent, hmem⟩
    cases event with
    | began => cases hmem
    | clocked => cases hmem
    | proceeded n thread => exact ⟨n, thread, hevent, hmem⟩
  · rintro ⟨n, thread, hevent, hmem⟩
    exact ⟨_, hevent, hmem⟩

theorem eq_of_mem_addedBy (hnodup : ((addedIn history).map (·.1)).Nodup) {n k : Nat} {id : DocId}
    (hn : id ∈ (addedBy n history).map (·.1)) (hk : id ∈ (addedBy k history).map (·.1)) :
    n = k := by
  obtain ⟨first, hfirst, rfl⟩ := List.mem_map.mp hn
  obtain ⟨second, hsecond, hid⟩ := List.mem_map.mp hk
  obtain ⟨thread, hthread, hmade⟩ := mem_addedBy.mp hfirst
  obtain ⟨other, hother, hagain⟩ := mem_addedBy.mp hsecond
  unfold addedIn at hnodup
  rw [List.map_flatMap, List.nodup_flatMap] at hnodup
  have : Std.Symm (Function.onFun List.Disjoint fun event : Event Task Outcome =>
      (added event.change?).map (·.1)) := ⟨fun _ _ h _ hfirst hsecond => h hsecond hfirst⟩
  by_contra hne
  have hevents : Event.proceeded n thread ≠ .proceeded k other := fun heq => by
    cases heq
    exact hne rfl
  exact hnodup.2.forall hthread hother hevents (List.mem_map.mpr ⟨first, hmade, rfl⟩)
    (List.mem_map.mpr ⟨second, hagain, hid⟩)

end History

/-- What a program has created so far: all entries that it was begun for, once a batch of it was
accepted. -/
structure Made (thread : Thread Task Outcome) (entries : List QueueEntry) : Prop where
  committed : thread.log.Committed → entries = thread.task.entries
  uncommitted : ¬ thread.log.Committed → entries = []

theorem added_eq_nil {thread : Thread Task Outcome} (hentries : thread.task.entries = []) :
    added thread.change? = [] := by
  refine List.eq_nil_iff_forall_not_mem.mpr fun created hmem => ?_
  obtain ⟨entries, hchange, hcreated⟩ := exists_of_mem_added hmem
  obtain ⟨_, rfl, _⟩ := Thread.change?_created hchange
  rw [hentries] at hcreated
  exact List.not_mem_nil (List.of_mem_zip hcreated).2

theorem added_of_accepted {task : Task} {log : Log} {request : Request} {reply : request.Reply}
    {rest : Program Outcome} {batch : Batch} (hallowed : task.allowed store log request)
    (haccepted : Exchange.accepted? ⟨request, reply⟩ = some batch) (hentries : task.entries ≠ []) :
    ¬ log.Committed ∧
      (added (Thread.change? ⟨task, ⟨request, reply⟩ :: log, rest⟩)).map (·.2) = task.entries := by
  have hlanded : Log.landed (⟨request, reply⟩ :: log) = true := by
    simp [Log.landed, haccepted]
  have hproduces : Produces store task.entries log request ∧
      Thread.change? ⟨task, ⟨request, reply⟩ :: log, rest⟩ =
        some (.created (entered (Log.drawn (⟨request, reply⟩ :: log)).reverse task.entries)) := by
    cases task with
    | enqueue q queue jobId => exact ⟨hallowed, if_pos hlanded⟩
    | enqueueAll target routing jobs => exact ⟨hallowed, if_pos hlanded⟩
    | _ => exact absurd rfl hentries
  obtain ⟨hproduces, hchange⟩ := hproduces
  have hbatch : ∃ target, request = .store target (.commit batch) := by
    cases request with
    | store target call =>
        cases call with
        | commit sent =>
            cases reply with
            | error e => cases haccepted
            | ok _ =>
                cases haccepted
                exact ⟨target, rfl⟩
        | _ => cases haccepted
    | _ => cases haccepted
  obtain ⟨target, rfl⟩ := hbatch
  obtain ⟨_, huncommitted, hlength, _⟩ := hproduces
  refine ⟨huncommitted, ?_⟩
  rw [hchange, Log.drawn_of_ne_freshText (by simp)]
  exact List.map_snd_zip (by simp [hlength])

theorem Made.proceeded {task : Task} {log : Log} {request : Request}
    {next : request.Reply → Program Outcome} {entries : List QueueEntry}
    (h : Made ⟨task, log, .call request next⟩ entries) (hallowed : task.allowed store log request)
    (reply : request.Reply)
    (hrest : (next reply).Conforms (task.allowed store) task.ends (⟨request, reply⟩ :: log)) :
    Made ⟨task, ⟨request, reply⟩ :: log, next reply⟩
      ((added (Thread.change? ⟨task, ⟨request, reply⟩ :: log, next reply⟩)).map (·.2) ++
        entries) := by
  by_cases hentries : task.entries = []
  · have hnone : entries = [] := by
      by_cases hcommitted : log.Committed
      · exact (h.committed hcommitted).trans hentries
      · exact h.uncommitted hcommitted
    rw [added_eq_nil hentries, hnone]
    exact ⟨fun _ => hentries.symm, fun _ => rfl⟩
  · cases haccepted : Exchange.accepted? ⟨request, reply⟩ with
    | none =>
        rw [Floor.change?_of_unaccepted haccepted hrest]
        have hsame : Log.Committed (⟨request, reply⟩ :: log) ↔ log.Committed := by
          rw [Log.committed_cons, haccepted]
          simp
        exact ⟨fun hcommitted => h.committed (hsame.mp hcommitted),
          fun hnone => h.uncommitted fun hcommitted => hnone (hsame.mpr hcommitted)⟩
    | some batch =>
        obtain ⟨huncommitted, hadded⟩ := added_of_accepted hallowed haccepted hentries
        rw [hadded, h.uncommitted huncommitted, List.append_nil]
        have hcommitted : Log.Committed (⟨request, reply⟩ :: log) :=
          Log.committed_cons.mpr (.inl (by rw [haccepted]; rfl))
        exact ⟨fun _ => rfl, fun hnone => absurd hcommitted hnone⟩

theorem made_of_run (hrun : Shift store (Yard.start clock) history y) (n : Nat) :
    (y.threads n = none → addedBy n history = []) ∧
      ∀ thread, y.threads n = some thread → Made thread ((addedBy n history).map (·.2)) := by
  induction hrun with
  | refl => exact ⟨fun _ => rfl, fun _ h => nomatch h⟩
  | step hrun hstep ih =>
      obtain ⟨hfree, hmade⟩ := ih
      cases hstep with
      | clocked time => exact ⟨hfree, hmade⟩
      | began k task hempty hat =>
          by_cases hk : n = k
          · subst hk
            rw [Yard.threads_seat_self]
            refine ⟨fun h => (nomatch h), fun thread hthread => ?_⟩
            cases hthread
            have hnone := hfree hempty
            exact ⟨fun h => absurd h Log.not_committed_nil, fun _ => congrArg (List.map _) hnone⟩
          · rw [Yard.threads_seat_of_ne _ _ _ hk]
            exact ⟨hfree, hmade⟩
      | proceeded k task log request next reply w hthread hreacts =>
          by_cases hk : n = k
          · subst hk
            rw [Yard.threads_seat_self, addedBy, if_pos rfl, List.map_append]
            refine ⟨fun h => (nomatch h), fun thread hsame => ?_⟩
            cases hsame
            obtain ⟨_, hallowed, hnext⟩ := (recorded_of_run hrun).sound.orderly n _ hthread
            exact (hmade _ hthread).proceeded hallowed reply (hnext reply)
          · rw [Yard.threads_seat_of_ne _ _ _ hk, addedBy, if_neg (Ne.symm hk)]
            exact ⟨hfree, hmade⟩

theorem added_of_returned (hrun : Shift store (Yard.start clock) history y) {n : Nat}
    {thread : Thread Task Outcome} {outcome : Outcome} (hthread : y.threads n = some thread)
    (hreturned : thread.rest = .done outcome) :
    (addedBy n history).map (·.2) = if outcome.isOk then thread.task.entries else [] := by
  have hmade := (made_of_run hrun n).2 thread hthread
  have hsound := (recorded_of_run hrun).sound
  by_cases hentries : thread.task.entries = []
  · rw [hentries, ite_self]
    by_cases hcommitted : thread.log.Committed
    · exact (hmade.committed hcommitted).trans hentries
    · exact hmade.uncommitted hcommitted
  · have hends := (hsound.orderly n thread hthread).2
    rw [hreturned] at hends
    have hconcludes : Concludes thread.task.entries thread.log outcome.isOk := by
      obtain ⟨task, log, rest⟩ := thread
      cases task with
      | enqueue q queue jobId => exact hends
      | enqueueAll target routing jobs => exact hends
      | _ => exact absurd rfl hentries
    have hnodup := hsound.apart.nodup n
    rw [Yard.logAt_of_threads hthread] at hnodup
    have hcommitted := hconcludes hnodup
    cases hok : outcome.isOk with
    | true => exact hmade.committed (hcommitted.mpr ⟨hok, hentries⟩)
    | false =>
        refine hmade.uncommitted fun h => ?_
        rw [hok] at hcommitted
        exact nomatch (hcommitted.mp h).1

theorem sequence_of_run {id : DocId} {d : Stored} (hrecorded : Recorded store history y)
    (hrun : Shift store y more last) (hentry : IsEntry id)
    (hfound : (y.world.memory store).find? id = some d) :
    ∀ kept, (last.world.memory store).find? id = some kept → kept.sequence = d.sequence := by
  have hknown : Recorded store (more ++ history) last ∧
      ∀ kept, (last.world.memory store).find? id = some kept → kept.sequence = d.sequence := by
    induction hrun with
    | refl =>
        refine ⟨hrecorded, fun kept hkept => ?_⟩
        rw [hfound] at hkept
        cases hkept
        rfl
    | step hrun hstep ih =>
        obtain ⟨hmiddle, hsequence⟩ := ih
        have hknown := (hrecorded.known_of_find? hentry hfound).1
        refine ⟨hmiddle.step hstep, fun kept hkept => ?_⟩
        cases (Floor.effect_of_step hmiddle.sound hstep).fate hentry with
        | kept hsame => exact hsequence kept (hsame.symm.trans hkept)
        | removed _ _ _ hgone =>
            rw [hgone] at hkept
            cases hkept
        | rewritten middle _ _ hholds hrewritten =>
            rw [hrewritten] at hkept
            cases hkept
            exact hsequence middle hholds.1
        | created _ _ _ _ _ _ _ hadded =>
            -- An identifier that is known is not created again.
            refine absurd ?_ (hmiddle.not_mem_of_added hstep (List.mem_map.mpr ⟨_, hadded, rfl⟩))
            rw [addedIn_append, List.map_append]
            exact List.mem_append_right _ hknown
  exact hknown.2

/-- The entries of a store after some turns, and after some more. -/
structure Delivery (store : StoreRef) (history : History) (y last : Floor) : Prop where
  /-- A producer that returned well has created one entry for each of its jobs. A producer that
  failed has created none, nor has any other program that returned. -/
  complete : ∀ n thread outcome, y.threads n = some thread → thread.rest = .done outcome →
    (addedBy n history).map (·.2) = if outcome.isOk then thread.task.entries else []
  /-- A program that has not returned has created all of its entries or none. -/
  whole : ∀ n thread, y.threads n = some thread →
    (addedBy n history).map (·.2) = thread.task.entries ∨ addedBy n history = []
  created : ∀ created, created ∈ addedIn history ↔ ∃ n, created ∈ addedBy n history
  distinct : ((addedIn history).map (·.1)).Nodup
  apart : ∀ n k id, id ∈ (addedBy n history).map (·.1) → id ∈ (addedBy k history).map (·.1) → n = k
  /-- There is a document for each created entry that was not acknowledged, and no other. -/
  present : ∀ id, IsEntry id → (((y.world.memory store).find? id).isSome ↔
    id ∈ (addedIn history).map (·.1) ∧ ¬ RemovedIn history id)
  /-- It has the job and the queue of its creation, no expiry, and keeps its number. -/
  unchanged : ∀ id entry d, (id, entry) ∈ addedIn history →
    (y.world.memory store).find? id = some d →
      d.expiresAt = none ∧
      (∃ fetchedAt, Document.decode? d.body = some { entry with fetchedAt }) ∧
      ∀ kept, (last.world.memory store).find? id = some kept → kept.sequence = d.sequence

theorem delivery_of_run (hrun : Shift store (Yard.start clock) history y)
    (hmore : Shift store y more last) : Delivery store history y last := by
  have hrecorded := recorded_of_run hrun
  constructor
  · intro n thread outcome hthread hreturned
    exact added_of_returned hrun hthread hreturned
  · intro n thread hthread
    have hmade := (made_of_run hrun n).2 thread hthread
    by_cases hcommitted : thread.log.Committed
    · exact .inl (hmade.committed hcommitted)
    · exact .inr (List.map_eq_nil_iff.mp (hmade.uncommitted hcommitted))
  · exact fun _ => mem_addedIn_iff
  · exact hrecorded.nodup
  · exact fun _ _ _ => eq_of_mem_addedBy hrecorded.nodup
  · exact hrecorded.present
  · intro id entry d hmem hfound
    have hentry := (hrecorded.published id (List.mem_map.mpr ⟨_, hmem, rfl⟩)).1
    have hexpiry := (hrecorded.sound.entries id d hentry hfound).1
    have hcontent := hrecorded.contents id entry d hmem hfound
    exact ⟨hexpiry, ⟨_, hcontent⟩, sequence_of_run hrecorded hmore hentry hfound⟩

namespace Sample

/-- Three entries are made, and one of them is claimed and put back. -/
def morning : List (Move Task) :=
  produce 0 ++
    Move.whole 1 (.enqueueAll queue.store (.single queue) [("mail", ⟨"2"⟩), ("mail", ⟨"3"⟩)]) 5 ++
    consume 2 8 ++ Move.whole 3 (.abandon (leaseAt .origin)) 2

/-- The entry is claimed again and acknowledged. -/
def evening : List (Move Task) :=
  consume 4 8 ++ Move.whole 5 (.acknowledge (leaseAt .origin)) 2

def night : Floor := (Yard.play Task.program evening ([], (played morning).2)).2

end Sample

open Sample in
theorem delivery_returned :
    Delivery queue.store (played morning).1 (played morning).2 night ∧
      (addedBy 0 (played morning).1).map (·.1) = [entryId] ∧
      (addedBy 1 (played morning).1).map (·.2) =
        [.pending "mail" ⟨"2"⟩, .pending "mail" ⟨"3"⟩] ∧
      ((played morning).2.world.memory queue.store).find? entryId ≠ none ∧
      (night.world.memory queue.store).find? entryId = none ∧
      (night.world.memory queue.store).documents.entries.length = 2 := by
  have hmorning : ∀ n task, .begin n task ∈ morning → task.At queue.store := by
    intro n task hmem
    simp only [morning, produce, consume, List.mem_append, Move.begin_mem_whole] at hmem
    rcases hmem with ((⟨_, rfl⟩ | ⟨_, rfl⟩) | ⟨_, rfl⟩) | ⟨_, rfl⟩ <;> rfl
  have hevening : ∀ n task, .begin n task ∈ evening → task.At queue.store := by
    intro n task hmem
    simp only [evening, consume, List.mem_append, Move.begin_mem_whole] at hmem
    rcases hmem with ⟨_, rfl⟩ | ⟨_, rfl⟩ <;> rfl
  exact ⟨delivery_of_run (run_played hmorning) (Yard.run_play hevening .refl), by decide +kernel⟩

end Jobyard.Simulation
