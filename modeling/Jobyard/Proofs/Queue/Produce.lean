import Jobyard.Proofs.Program.Conduct
import Jobyard.Proofs.Session.Learned
import Jobyard.Transaction.Job

/-!
The conduct of producers. Whatever they are told, producers draw a fresh text for each entry and
write all entries at once, each under an identifier of its own that must not be taken.
-/

namespace Jobyard

def entered (keys : List String) (entries : List QueueEntry) : List (DocId × QueueEntry) :=
  (keys.map (Document.idFor QueueEntry)).zip entries

def creations (entries : List (DocId × QueueEntry)) : Batch :=
  entries.map fun entry => .put entry.1 (Document.encode entry.2) none .absent

/-- The requests of a producer of certain entries. As long as its texts differ, what it writes is
what it was asked to write. -/
def Produces (store : StoreRef) (entries : List QueueEntry) (log : Log) : Request → Prop
  | .freshText => True
  | .store target (.commit batch) =>
    target = store ∧ ¬ log.Committed ∧ log.drawn.length = entries.length ∧
      (log.drawn.Nodup → batch = creations (entered log.drawn.reverse entries))
  | .notify _ => True
  | _ => False

/-- How a producer of certain entries ends: if it says that it went well, its batch was accepted,
unless there was nothing to write; if it says that it failed, no batch was. -/
def Concludes (entries : List QueueEntry) (log : Log) (ok : Bool) : Prop :=
  log.drawn.Nodup → (log.Committed ↔ ok = true ∧ entries ≠ [])

theorem Concludes.cons {entries : List QueueEntry} {log : Log} {ok : Bool}
    (h : Concludes entries log ok) {request : Request} (reply : request.Reply)
    (hfresh : request ≠ .freshText) (hunaccepted : Exchange.accepted? ⟨request, reply⟩ = none) :
    Concludes entries (⟨request, reply⟩ :: log) ok := by
  intro hnodup
  rw [Log.drawn_of_ne_freshText hfresh] at hnodup
  rw [Log.committed_cons, hunaccepted, ← h hnodup]
  exact ⟨fun hor => hor.resolve_left (fun hnone => nomatch hnone), .inr⟩

theorem concludes_of_uncommitted {entries : List QueueEntry} {log : Log} (h : ¬ log.Committed) :
    Concludes entries log false :=
  fun _ => ⟨fun hcommitted => absurd hcommitted h, fun hok => nomatch hok.1⟩

def draftSession (store : StoreRef) (entries : List (DocId × QueueEntry)) : Session :=
  ⟨store, entries.map fun entry =>
    (entry.1, ⟨some (Document.encode entry.2), none, false, none, .dirty⟩), [], true⟩

theorem batch_draftSession (store : StoreRef) (entries : List (DocId × QueueEntry)) :
    (draftSession store entries).batch = creations entries := by
  unfold Session.batch draftSession creations
  rw [List.append_nil, List.filterMap_map]
  exact congrFun List.filterMap_eq_map entries

theorem entered_concat {keys : List String} {entries : List QueueEntry} (key : String)
    (entry : QueueEntry) (hlength : keys.length = entries.length) :
    entered (keys ++ [key]) (entries ++ [entry]) =
      entered keys entries ++ [(Document.idFor QueueEntry key, entry)] := by
  unfold entered
  rw [List.map_append, List.zip_append (by simpa using hlength)]
  rfl

theorem mem_keys_entered {keys : List String} {entries : List QueueEntry} {id : DocId}
    (h : id ∈ (entered keys entries).map (·.1)) :
    ∃ key ∈ keys, id = Document.idFor QueueEntry key := by
  obtain ⟨pair, hpair, rfl⟩ := List.mem_map.mp h
  obtain ⟨key, hkey, hid⟩ := List.mem_map.mp (List.of_mem_zip hpair).1
  exact ⟨key, hkey, hid.symm⟩

theorem Session.place_of_lookup_eq_none {id : DocId} (t : Tracked)
    {tracked : List (DocId × Tracked)} (h : tracked.lookup id = none) :
    Session.place id t tracked = tracked ++ [(id, t)] := by
  induction tracked with
  | nil => rfl
  | cons first rest ih =>
      obtain ⟨key, u⟩ := first
      have hne : key ≠ id := by
        rintro rfl
        simp at h
      have hrest : rest.lookup id = none := by
        rwa [List.lookup_cons, beq_false_of_ne hne.symm] at h
      rw [Session.place, if_neg hne, ih hrest, List.cons_append]

theorem put_draftSession (store : StoreRef) {entries : List (DocId × QueueEntry)} {id : DocId}
    (entry : QueueEntry) (hnew : id ∉ entries.map (·.1)) :
    (draftSession store entries).put id (Document.encode entry) =
      draftSession store (entries ++ [(id, entry)]) := by
  have hlookup : (draftSession store entries).find? id = none := by
    rw [Session.find?, List.lookup_eq_none_iff]
    intro tracked htracked
    obtain ⟨other, hother, rfl⟩ := List.mem_map.mp htracked
    exact bne_iff_ne.mpr fun hid => hnew (List.mem_map.mpr ⟨other, hother, hid.symm⟩)
  unfold Session.put
  rw [hlookup]
  unfold Session.track
  rw [Session.place_of_lookup_eq_none _ hlookup]
  simp [draftSession]

theorem conforms_saveChanges {log : Log} {s : Session} (entries : List QueueEntry)
    (hnone : ¬ log.Committed) (hlength : log.drawn.length = entries.length)
    (hsession : log.drawn.Nodup → s = draftSession s.store (entered log.drawn.reverse entries)) :
    (Work.start Work.saveChanges s).Conforms (Produces s.store entries)
      (fun last result => Concludes entries last result.1.isOk) log := by
  have hbatch : log.drawn.Nodup → s.batch = creations (entered log.drawn.reverse entries) := by
    intro hnodup
    rw [hsession hnodup]
    exact batch_draftSession _ _
  -- There is a write for each entry, so the batch is empty only if there is no entry.
  have hempty : log.drawn.Nodup → (s.batch = [] ↔ entries = []) := by
    intro hnodup
    rw [← List.length_eq_zero_iff, ← List.length_eq_zero_iff, hbatch hnodup]
    simp [creations, entered, hlength]
  rw [Work.start_saveChanges]
  split
  · rename_i hunsent
    intro hnodup
    have hentries := (hempty hnodup).mp (List.isEmpty_iff.mp hunsent)
    exact ⟨fun hcommitted => absurd hcommitted hnone, fun hok => absurd hentries hok.2⟩
  · rename_i hsent
    refine ⟨⟨rfl, hnone, hlength, hbatch⟩, fun reply => ?_⟩
    cases reply with
    | error e => exact concludes_of_uncommitted (Log.not_committed_cons _ rfl hnone)
    | ok _ =>
        intro hnodup
        rw [Log.drawn_of_ne_freshText (by simp)] at hnodup
        have hentries : entries ≠ [] := fun h =>
          hsent (List.isEmpty_iff.mpr ((hempty hnodup).mpr h))
        exact ⟨fun _ => ⟨rfl, hentries⟩, fun _ => Log.committed_cons.mpr (.inl rfl)⟩

theorem JobQueue.conforms_enqueue (q : JobQueue) (queue : String) (jobId : JobId) :
    (q.enqueue queue jobId).run.Conforms (Produces q.store [QueueEntry.pending queue jobId])
      (fun log result => Concludes [QueueEntry.pending queue jobId] log result.isOk) [] := by
  have hwork : (Work.alone q.store (do
      enqueueIn queue jobId
      Work.saveChanges)).run.Conforms (Produces q.store [QueueEntry.pending queue jobId])
        (fun log result => Concludes [QueueEntry.pending queue jobId] log result.isOk) [] := by
    have hstart : (Work.start (do
        enqueueIn queue jobId
        Work.saveChanges) (Session.empty q.store true)).Conforms
          (Produces q.store [QueueEntry.pending queue jobId])
          (fun log result => Concludes [QueueEntry.pending queue jobId] log result.1.isOk) [] := by
      rw [Work.start_bind]
      refine ⟨trivial, fun key => ?_⟩
      change Program.Conforms _ _ _ (Work.start Work.saveChanges
        (draftSession q.store [(Document.idFor QueueEntry key, QueueEntry.pending queue jobId)]))
      have hnone := Log.not_committed_cons ⟨.freshText, key⟩ rfl Log.not_committed_nil
      exact conforms_saveChanges (s := draftSession _ _) [QueueEntry.pending queue jobId] hnone rfl
        fun _ => rfl
    exact hstart.bind fun _ _ h => h
  refine hwork.bind_action (fun log _ h => ?_) fun _ _ h => h
  exact ⟨trivial, fun reply => h.cons reply (by simp) rfl⟩

namespace Step

variable {α β : Type}

/-- A step done in a transaction: a program that ends with a result and the transaction
afterwards. -/
def start (step : Step α) (t : Transaction) : Program (Except StoreError α × Transaction) :=
  (step.run).run t

theorem start_bind (step : Step α) (f : α → Step β) (t : Transaction) :
    start (step >>= f) t = start step t >>= fun result =>
      match result.1 with
      | .ok value => (f value).start result.2
      | .error e => .done (.error e, result.2) := by
  change (start step t >>= fun result => (ExceptT.bindCont f result.1).run result.2) = _
  congr 1
  funext ⟨result, t⟩
  cases result <;> rfl

@[simp] theorem start_get (t : Transaction) : start get t = .done (.ok t, t) := rfl

theorem start_lift (p : Program α) (t : Transaction) :
    start (ExceptT.lift (StateT.lift p)) t = p >>= fun value => .done (.ok value, t) := by
  change ((p >>= fun value => Interaction.done (value, t)) >>= fun result : α × Transaction =>
    Interaction.done (Except.ok result.1, result.2)) = _
  rw [Interaction.bind_bind]
  rfl

theorem start_addToQueue (queue : String) (id : JobId) (t : Transaction) :
    start (addToQueue queue id) t = .call .freshText fun key =>
      .done (.ok (), { t with
        session := t.session.put (Document.idFor QueueEntry key)
          (Document.encode (QueueEntry.pending queue id))
        afterCommit := t.afterCommit ++ [.wake (t.routing.serving queue).signal] }) := rfl

theorem start_commit (t : Transaction) :
    start commit t = Work.start Work.saveChanges t.session >>= fun result =>
      match result.1 with
      | .ok _ => runAll t.afterCommit >>= fun _ =>
          .done (.ok (), { t with session := result.2, afterCommit := [] })
      | .error e => .done (.error e, { t with session := result.2 }) := by
  unfold commit
  rw [start_bind]
  change (Work.start Work.saveChanges t.session >>= fun result =>
    Interaction.done (result.1, { t with session := result.2 })) >>= _ = _
  rw [Interaction.bind_bind]
  congr 1
  funext ⟨result, s⟩
  cases result with
  | error e => rfl
  | ok value =>
      simp only [Interaction.done_bind]
      rw [start_bind, start_get, Interaction.done_bind]
      simp only
      rw [start_bind, start_lift, Interaction.bind_bind]
      rfl

end Step

namespace Transaction

def addAll : List (String × JobId) → Step Unit
  | [] => pure ()
  | (queue, jobId) :: rest => do
    Step.addToQueue queue jobId
    addAll rest

def enqueueAll (store : StoreRef) (routing : Routing) (jobs : List (String × JobId)) :
    Program (Except StoreError Unit) := do
  let (result, _) ← ((do
    addAll jobs
    Step.commit : Step Unit).run).run (Transaction.start store routing)
  pure result

def entriesOf (jobs : List (String × JobId)) : List QueueEntry :=
  jobs.map fun job => QueueEntry.pending job.1 job.2

structure Adding (store : StoreRef) (log : Log) (t : Transaction) (entries : List QueueEntry) :
    Prop where
  uncommitted : ¬ log.Committed
  drawn : log.drawn.length = entries.length
  store : t.session.store = store
  session : log.drawn.Nodup →
    t.session = draftSession t.session.store (entered log.drawn.reverse entries)
  wakes : ∀ action ∈ t.afterCommit, ∃ signal, action = .wake signal

variable {store : StoreRef} {log : Log} {t : Transaction} {entries : List QueueEntry}

theorem Adding.add (hadding : Adding store log t entries) (key : String) (entry : QueueEntry)
    (signal : SignalRef) :
    Adding store (⟨.freshText, key⟩ :: log)
      { t with
        session := t.session.put (Document.idFor QueueEntry key) (Document.encode entry)
        afterCommit := t.afterCommit ++ [.wake signal] } (entries ++ [entry]) := by
  obtain ⟨huncommitted, hdrawn, hstore, hsession, hwakes⟩ := hadding
  refine ⟨Log.not_committed_cons _ rfl huncommitted, ?_, ?_, ?_, ?_⟩
  · rw [Log.drawn_freshText, List.length_cons, List.length_append, hdrawn]
    rfl
  · exact (Session.store_put _ _ _).trans hstore
  · intro hnodup
    rw [Log.drawn_freshText] at hnodup ⊢
    obtain ⟨hnew, hrest⟩ := List.nodup_cons.mp hnodup
    have hfresh : Document.idFor QueueEntry key ∉
        (entered log.drawn.reverse entries).map (·.1) := by
      intro hmem
      obtain ⟨other, hother, hid⟩ := mem_keys_entered hmem
      have hkey : key = other := congrArg DocId.key hid
      exact hnew (hkey ▸ List.mem_reverse.mp hother)
    calc t.session.put (Document.idFor QueueEntry key) (Document.encode entry)
      _ = (draftSession t.session.store (entered log.drawn.reverse entries)).put
            (Document.idFor QueueEntry key) (Document.encode entry) :=
          congrArg (Session.put · (Document.idFor QueueEntry key) (Document.encode entry))
            (hsession hrest)
      _ = draftSession t.session.store (entered log.drawn.reverse entries ++
            [(Document.idFor QueueEntry key, entry)]) := put_draftSession _ entry hfresh
      _ = _ := by
          rw [Session.store_put, List.reverse_cons, entered_concat]
          rw [List.length_reverse, hdrawn]
  · intro action hmem
    rcases List.mem_append.mp hmem with hearlier | hlast
    · exact hwakes action hearlier
    · exact ⟨signal, List.mem_singleton.mp hlast⟩

theorem conforms_addAll {jobs : List (String × JobId)} {all : List QueueEntry}
    (hadding : Adding store log t entries) :
    (Step.start (addAll jobs) t).Conforms (Produces store all)
      (fun log result => Adding store log result.2 (entries ++ entriesOf jobs)) log := by
  induction jobs generalizing log t entries with
  | nil =>
      change Adding store log t (entries ++ [])
      rwa [List.append_nil]
  | cons job rest ih =>
      obtain ⟨queue, jobId⟩ := job
      unfold addAll
      rw [Step.start_bind, Step.start_addToQueue]
      refine ⟨trivial, fun key => ?_⟩
      have hrest := ih (hadding.add key (QueueEntry.pending queue jobId)
        (t.routing.serving queue).signal)
      rw [List.append_assoc] at hrest
      exact hrest

theorem conforms_runAll {actions : List AfterCommit} {all : List QueueEntry}
    (hwakes : ∀ action ∈ actions, ∃ signal, action = .wake signal)
    (hconcludes : Concludes all log true) :
    (Step.runAll actions).Conforms (Produces store all) (fun last _ => Concludes all last true)
      log := by
  induction actions generalizing log with
  | nil => exact hconcludes
  | cons action rest ih =>
      obtain ⟨signal, rfl⟩ := hwakes action List.mem_cons_self
      refine ⟨trivial, fun reply => ih ?_ (hconcludes.cons reply (by simp) rfl)⟩
      exact fun other hother => hwakes other (List.mem_cons_of_mem _ hother)

theorem conforms_enqueueAll (store : StoreRef) (routing : Routing)
    (jobs : List (String × JobId)) :
    (enqueueAll store routing jobs).Conforms (Produces store (entriesOf jobs))
      (fun log result => Concludes (entriesOf jobs) log result.isOk) [] := by
  have hstart : Adding store [] (Transaction.start store routing) [] :=
    ⟨Log.not_committed_nil, rfl, rfl, fun _ => rfl, fun _ h => nomatch h⟩
  have hsteps : (Step.start (do
      addAll jobs
      Step.commit) (Transaction.start store routing)).Conforms (Produces store (entriesOf jobs))
        (fun log result => Concludes (entriesOf jobs) log result.1.isOk) [] := by
    rw [Step.start_bind]
    refine (conforms_addAll hstart).bind fun log result hadding => ?_
    obtain ⟨result, t⟩ := result
    cases result with
    | error e => exact concludes_of_uncommitted hadding.uncommitted
    | ok _ =>
        change (Step.start Step.commit t).Conforms _ _ _
        rw [Step.start_commit]
        have hsave := conforms_saveChanges (entriesOf jobs) hadding.uncommitted hadding.drawn
          hadding.session
        rw [hadding.store] at hsave
        refine hsave.bind fun log saved hconcludes => ?_
        obtain ⟨saved, s⟩ := saved
        cases saved with
        | error e => exact hconcludes
        | ok _ => exact (conforms_runAll hadding.wakes hconcludes).bind fun _ _ h => h
  exact hsteps.bind fun _ _ h => h

end Transaction

end Jobyard
