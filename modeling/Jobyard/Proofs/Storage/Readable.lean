import Jobyard.Proofs.Session.Legible
import Jobyard.Proofs.Simulation.Play
import Jobyard.Proofs.Storage.Conduct

/-!
A storage in use: transactions, connections, queues and reapers side by side. What they store can
be read again, as long as the scores they give to members of sets are finite numbers.
-/

namespace Jobyard

/-- The total of a counter as it is stored, be it within the bounds of numbers or not. -/
def Counter.storedTotal? : Json → Option Int
  | .obj [(_, .int total)] => some total
  | _ => none

def Memory.CountersFit (m : Memory) : Prop :=
  ∀ d ∈ m.documents.values, d.id.collection = Document.collection Counter →
    ∀ total ∈ Counter.storedTotal? d.body, Json.least64 ≤ total ∧ total ≤ Json.greatest64

namespace Kind

variable {name : String} {kind : Kind} {id : DocId} {body : Json}

theorem reads_of_proper (hproper : Proper id body)
    (hcounter : id.collection = Document.collection Counter →
      ∀ total ∈ Counter.storedTotal? body, Json.least64 ≤ total ∧ total ≤ Json.greatest64)
    (hkind : (name, kind) ∈ Kind.all) : kind.Reads id body := by
  have hlasting : ∀ (α : Type) [Document α] [Storable α], Shape.Known α →
      (∀ document : α, Storable.Valid document → Document.Lasting document) →
      Document.Legible α id body := by
    intro α _ _ hknown hlasts hid
    obtain ⟨document, hvalid, rfl⟩ := (proper_iff hknown hid).mp hproper
    rw [hlasts document hvalid]
    rfl
  simp only [Kind.all, List.mem_cons, Prod.mk.injEq, List.not_mem_nil, or_false] at hkind
  rcases hkind with ⟨_, rfl⟩ | ⟨_, rfl⟩ | ⟨_, rfl⟩ | ⟨_, rfl⟩ | ⟨_, rfl⟩ | ⟨_, rfl⟩ | ⟨_, rfl⟩
  · exact reads_of.mpr (hlasting Job Shape.known_job fun j _ => j.lasting)
  · exact reads_of.mpr (hlasting QueueEntry Shape.known_queueEntry fun entry _ => entry.lasting)
  · refine reads_of.mpr fun hid => ?_
    obtain ⟨total, rfl⟩ := (proper_counter hid).mp hproper
    obtain ⟨hleast, hgreatest⟩ := hcounter hid total rfl
    rw [Counter.lasting (c := ⟨total⟩) hleast hgreatest]
    rfl
  · exact reads_of.mpr (hlasting ScoredSet Shape.known_scoredSet fun _ => ScoredSet.Finite.lasting)
  · exact reads_of.mpr (hlasting ValueList Shape.known_valueList fun l _ => l.lasting)
  · exact reads_of.mpr (hlasting FieldMap Shape.known_fieldMap fun h _ => h.lasting)
  · exact reads_of.mpr (hlasting Server Shape.known_server fun _ => Server.lasting)

theorem isOk_decode {d : Stored} (hkind : (name, kind) ∈ Kind.all)
    (hreads : (kind.recode? d.body).isSome) : (kind.decode d).isOk := by
  have hof : ∀ (α : Type) [Document α] (loadOrBlank : DocId → Work Json),
      kind = .of α loadOrBlank → (kind.decode d).isOk := by
    rintro α _ loadOrBlank rfl
    change ((d.decode α).map Document.encode).isOk
    change ((Document.decode? d.body : Option α).map Document.encode).isSome at hreads
    unfold Stored.decode
    cases hread : (Document.decode? d.body : Option α) with
    | some document => rfl
    | none =>
        rw [hread] at hreads
        cases hreads
  simp only [Kind.all, List.mem_cons, Prod.mk.injEq, List.not_mem_nil, or_false] at hkind
  rcases hkind with ⟨_, h⟩ | ⟨_, h⟩ | ⟨_, h⟩ | ⟨_, h⟩ | ⟨_, h⟩ | ⟨_, h⟩ | ⟨_, h⟩ <;>
    exact hof _ _ h

end Kind

namespace Simulation

inductive StorageTask
  | transact (c : Connection) (plan : TransactionPlan)
  | createJob (c : Connection) (invocation : InvocationData) (parameters : Dict String String)
    (createdAt : Instant) (length : Duration)
  | setJobParameter (c : Connection) (job : JobId) (name value : String)
  | setFields (c : Connection) (key : String) (fields : List (String × String))
  | announceServer (c : Connection) (server : String) (data : ServerData)
  | heartbeat (c : Connection) (server : String)
  | removeServer (c : Connection) (server : String)
  | removeTimedOutServers (c : Connection) (timeout : Duration)
  | enqueue (q : JobQueue) (queue : String) (jobId : JobId)
  | dequeue (q : JobQueue) (queues : List String) (token : TokenRef) (limit : Nat)
  | acknowledge (l : Lease)
  | abandon (l : Lease)
  | drop (l : Lease)
  | reap (r : Reaper) (rounds : Nat)

namespace StorageTask

def program : StorageTask → Program Unit
  | transact c plan => discard (plan.program c.transaction [])
  | createJob c invocation parameters createdAt length =>
    discard (c.createExpiredJob invocation parameters createdAt length).run
  | setJobParameter c job name value => discard (c.setJobParameter job name value).run
  | setFields c key fields => discard (c.setFields key fields).run
  | announceServer c server data => discard (c.announceServer server data).run
  | heartbeat c server => discard (c.heartbeat server).run
  | removeServer c server => discard (c.removeServer server).run
  | removeTimedOutServers c timeout => discard (c.removeTimedOutServers timeout).run
  | enqueue q queue jobId => discard (q.enqueue queue jobId).run
  | dequeue q queues token limit => discard (q.dequeue queues token limit)
  | acknowledge l => discard l.acknowledge.run
  | abandon l => discard l.abandon.run
  | drop l => discard l.drop
  | reap r rounds => discard (r.runOnce rounds).run

/-- Whether a task belongs to a store. Leases are of queue entries, and a worker count is within
the bounds of its type. -/
def At (store : StoreRef) : StorageTask → Prop
  | transact c _ | createJob c .. | setJobParameter c .. | setFields c .. | heartbeat c _
  | removeServer c _ | removeTimedOutServers c _ => c.store = store
  | announceServer c _ data => c.store = store ∧ data.workerCount ≤ ServerData.workerLimit
  | enqueue q .. | dequeue q .. => q.store = store
  | acknowledge l | abandon l | drop l =>
    l.store = store ∧ l.entryId.collection = Document.collection QueueEntry
  | reap .. => True

def IsFinite : StorageTask → Prop
  | transact _ plan => plan.All Operation.IsFinite
  | _ => True

variable {store : StoreRef} {task : StorageTask}

theorem conforms (hat : task.At store) (hfinite : task.IsFinite) :
    task.program.Conforms (Keeps store) (fun _ _ => True) [] := by
  have hdiscarded : ∀ {α : Type} {p : Program α}, p.Conforms (Keeps store) (fun _ _ => True) [] →
      (discard p).Conforms (Keeps store) (fun _ _ => True) [] :=
    fun hp => hp.bind fun _ _ _ => trivial
  have hloose : ∀ {α : Type} {p : Program α} {allowed : Log → Request → Prop}
      {ends : Log → α → Prop}, p.Conforms allowed ends [] →
      (∀ log request, allowed log request → Keeps store log request) →
      p.Conforms (Keeps store) (fun _ _ => True) [] :=
    fun hp hkeeps => (hp.weaken hkeeps).mono fun _ _ _ => trivial
  cases task with
  | transact c plan =>
      cases hat
      exact hdiscarded (TransactionPlan.conforms_keeps hfinite c)
  | createJob c invocation parameters createdAt length =>
      cases hat
      exact hdiscarded (c.conforms_createExpiredJob invocation parameters createdAt length)
  | setJobParameter c job name value =>
      cases hat
      exact hdiscarded (c.conforms_setJobParameter job name value)
  | setFields c key fields =>
      cases hat
      exact hdiscarded (c.conforms_setFields key fields)
  | announceServer c server data =>
      obtain ⟨rfl, hworkers⟩ := hat
      exact hdiscarded (c.conforms_announceServer server hworkers)
  | heartbeat c server =>
      cases hat
      exact hdiscarded (c.conforms_heartbeat server)
  | removeServer c server =>
      cases hat
      exact hdiscarded (c.conforms_removeServer server)
  | removeTimedOutServers c timeout =>
      cases hat
      exact hdiscarded (c.conforms_removeTimedOutServers timeout)
  | enqueue q queue jobId =>
      cases hat
      exact hdiscarded (q.conforms_enqueue_keeps queue jobId)
  | dequeue q queues token limit =>
      cases hat
      exact hdiscarded (hloose (q.conforms_dequeue queues token limit)
        fun _ _ => JobQueue.keeps_of_asks)
  | acknowledge l =>
      obtain ⟨rfl, _⟩ := hat
      exact hdiscarded (hloose Lease.conforms_acknowledge
        fun _ _ => Lease.keeps_of_resolves fun _ _ => trivial)
  | abandon l =>
      obtain ⟨rfl, hentry⟩ := hat
      exact hdiscarded (hloose Lease.conforms_abandon
        fun _ _ => Lease.keeps_of_resolves (Lease.isProper_returned hentry))
  | drop l =>
      obtain ⟨rfl, hentry⟩ := hat
      exact hdiscarded (hloose Lease.conforms_drop
        fun _ _ => Lease.keeps_of_resolves (Lease.isProper_returned hentry))
  | reap r rounds =>
      exact hdiscarded (r.conforms_runOnce rounds (fun _ _ heq => nomatch heq)
        fun _ _ _ _ heq => nomatch heq)

end StorageTask

namespace World

variable {store : StoreRef} {w next : World} {request : Request} {reply : request.Reply}

theorem isProper_of_reacts (hcalm : w.Calm) (hkeyed : (w.memory store).Keyed)
    (hm : (w.memory store).IsProper) (h : w.Reacts request reply next) :
    Exchange.IsProper store ⟨request, reply⟩ where
  loaded id d hloads := hm id d (find?_of_loads hcalm h hloads).1
  queried q found heq d hd := by
    cases heq
    rcases reacts_store hcalm h with ⟨hreply, _⟩ | ⟨_, herror, _⟩
    · exact hm d.id d (Memory.mem_of_query hkeyed hreply.symm hd).1
    · cases herror
  found _ _ hfinds := collection_of_finds hcalm hkeyed h hfinds

theorem memory_isProper_of_reacts (hcalm : w.Calm) (hm : (w.memory store).IsProper)
    (h : w.Reacts request reply next)
    (hbatch : ∀ batch, request = .store store (.commit batch) → ∀ w ∈ batch, w.IsProper) :
    (next.memory store).IsProper := by
  cases haccepted : Exchange.accepted? ⟨request, reply⟩ with
  | none => exact hm.of_kept (find?_of_unaccepted hcalm h haccepted store)
  | some batch =>
      obtain ⟨target, hrequest, hcommit, hothers⟩ := commit_of_accepted hcalm h haccepted
      by_cases htarget : store = target
      · subst htarget
        exact hm.commit (hbatch batch hrequest) hcommit
      · rw [hothers store htarget]
        exact hm

end World

abbrev StorageYard := Yard StorageTask Unit

namespace StorageYard

variable {store : StoreRef} {y last : StorageYard} {event : Event StorageTask Unit}

structure Sound (store : StoreRef) (y : StorageYard) : Prop where
  calm : y.world.Calm
  keyed : (y.world.memory store).Keyed
  orderly : y.Orderly (fun task => task.At store ∧ task.IsFinite) (fun _ => Keeps store)
    fun _ _ _ => True
  memory : (y.world.memory store).IsProper
  heard : ∀ n thread, y.threads n = some thread → thread.log.IsProper store

theorem sound_start (store : StoreRef) (clock : Instant) : Sound store (Yard.start clock) where
  calm := World.calm_start clock
  keyed := Memory.keyed_empty
  orderly := Yard.orderly_start clock
  memory := Memory.isProper_empty
  heard _ _ h := nomatch h

theorem Sound.step (h : Sound store y)
    (hstep : Yard.Step StorageTask.program (fun task => task.At store ∧ task.IsFinite) y event
      last) : Sound store last := by
  have hcalm := hstep.calm h.calm
  have hkeyed := hstep.keyed h.calm h.keyed
  have horderly := h.orderly.step (fun _ h => StorageTask.conforms h.1 h.2) hstep
  cases hstep with
  | clocked time => exact ⟨hcalm, hkeyed, horderly, h.memory, h.heard⟩
  | began n task hfree hat =>
      refine ⟨hcalm, hkeyed, horderly, h.memory, fun k other hother => ?_⟩
      rcases Yard.threads_seat_cases hother with rfl | hold
      · exact fun _ hmem => nomatch hmem
      · exact h.heard k other hold
  | proceeded n task log request next reply w hthread hreacts =>
      have hlog := h.heard n _ hthread
      obtain ⟨_, hkeeps, _⟩ := h.orderly n _ hthread
      refine ⟨hcalm, hkeyed, horderly, ?_, fun k other hother => ?_⟩
      · exact World.memory_isProper_of_reacts h.calm h.memory hreacts
          fun batch heq => hkeeps batch heq hlog
      · rcases Yard.threads_seat_cases hother with rfl | hold
        · exact List.forall_mem_cons.mpr
            ⟨World.isProper_of_reacts h.calm h.keyed h.memory hreacts, hlog⟩
        · exact h.heard k other hold

variable {clock : Instant} {history : List (Event StorageTask Unit)}

theorem sound_of_run
    (hrun : Yard.Run StorageTask.program (StorageTask.At store) (Yard.start clock) history y)
    (hfinite : ∀ n task, .began n task ∈ history → task.IsFinite) : Sound store y := by
  replace hrun := hrun.restrict hfinite
  clear hfinite
  induction hrun with
  | refl => exact sound_start store clock
  | step _ hstep ih => exact ih.step hstep

/-- Whatever the order of their turns: what tasks with finite scores have stored can be read, and
a session that holds readable documents reads on without an error but for invalid queries. -/
theorem readable_of_finite {name : String} {kind : Kind}
    (hrun : Yard.Run StorageTask.program (StorageTask.At store) (Yard.start clock) history y)
    (hfinite : ∀ n task, .began n task ∈ history → task.IsFinite)
    (hcounters : (y.world.memory store).CountersFit) (hkind : (name, kind) ∈ Kind.all) :
    (∀ id d, (y.world.memory store).find? id = some d → id.collection = kind.collection →
      (kind.decode d).isOk) ∧
    ∀ (s : Session) (reading : Reading) (e : StoreError), s.store = store →
      (∀ id t, s.find? id = some t → ∀ body, t.body = some body → kind.Reads id body) →
      reading.Within kind.collection →
      (y.world.run ((reading.work kind).start s)).1.1 = .error e → e.kind = .invalidQuery := by
  have hsound := sound_of_run hrun hfinite
  have hreads : ∀ id d, (y.world.memory store).find? id = some d → kind.Reads id d.body := by
    intro id d hfound
    refine Kind.reads_of_proper (hsound.memory id d hfound) (fun hid => ?_) hkind
    refine hcounters d (Dict.mem_values_iff.mpr ⟨id, hfound⟩) ?_
    rw [hsound.keyed id d hfound]
    exact hid
  refine ⟨fun id d hfound hid => Kind.isOk_decode hkind (hreads id d hfound hid), ?_⟩
  rintro s reading e rfl hs hwithin herror
  exact World.kind_of_run_reading hsound.calm hsound.keyed hkind hreads hs hwithin herror

namespace Sample

def scoring (score : Double) : StorageTask :=
  .transact Sample.connection (.perform (.edit (.addToSet "a" "m" score)) fun _ => .commit)

end Sample

/-- A set is committed while a server and a queue entry are stored. Then the set can be read, and a
query for no collection is refused as invalid. -/
theorem readable_after_commit :
    let moves : List (Move StorageTask) :=
      Move.whole 0 (Sample.scoring (.ofInt 2)) 1 ++
        Move.whole 1 (.announceServer Sample.connection "s" ⟨2, ["q"], none⟩) 3 ++
        Move.whole 2 (.enqueue Sample.queue "q" ⟨"j"⟩) 2 ++ [.turn 0]
    let last := (Yard.play StorageTask.program moves ([], Yard.start .origin)).2
    let query : Query := (Query.of ScoredSet).filter "" .isNull
    (∃ d, (last.world.memory ⟨0⟩).find? (Document.idFor ScoredSet "a") = some d ∧
      ((Kind.ofBlank ScoredSet).decode d).isOk) ∧
    ∃ e, (last.world.run (((Reading.query query).work (.ofBlank ScoredSet)).start
      (.empty ⟨0⟩ true))).1.1 = .error e ∧ e.kind = .invalidQuery := by
  intro moves last query
  have hmoves : ∀ n task, .begin n task ∈ moves → task.At ⟨0⟩ ∧ task.IsFinite := by
    intro n task hmem
    simp only [moves, List.mem_append, List.mem_singleton, Move.begin_mem_whole, reduceCtorEq,
      or_false] at hmem
    rcases hmem with (⟨_, rfl⟩ | ⟨_, rfl⟩) | ⟨_, rfl⟩
    · have hscore : (Double.ofInt 2).isFinite := by decide +kernel
      exact ⟨rfl, hscore, fun _ => trivial⟩
    · exact ⟨⟨rfl, by decide⟩, trivial⟩
    · exact ⟨rfl, trivial⟩
  have hrun : Yard.Run StorageTask.program (StorageTask.At ⟨0⟩) (Yard.start .origin) _ last :=
    Yard.run_play (fun n task h => (hmoves n task h).1) .refl
  have hfinite : Yard.Run StorageTask.program StorageTask.IsFinite (Yard.start .origin) _ last :=
    Yard.run_play (fun n task h => (hmoves n task h).2) .refl
  have hcounters : (last.world.memory ⟨0⟩).CountersFit := by
    unfold Memory.CountersFit
    decide +kernel
  have hkind : ("set", Kind.ofBlank ScoredSet) ∈ Kind.all := by simp [Kind.all]
  obtain ⟨hreads, hqueries⟩ := readable_of_finite hrun (fun _ _ => hfinite.admits_of_began)
    hcounters hkind
  have hstored : ((last.world.memory ⟨0⟩).find? (Document.idFor ScoredSet "a")).isSome := by
    decide +kernel
  obtain ⟨d, hd⟩ := Option.isSome_iff_exists.mp hstored
  refine ⟨⟨d, hd, hreads _ d hd rfl⟩, ?_⟩
  have hrefused : (last.world.run (((Reading.query query).work (.ofBlank ScoredSet)).start
      (.empty ⟨0⟩ true))).1.1 = .error (.malformedPath [""]) := by
    rfl
  exact ⟨_, hrefused, hqueries (.empty ⟨0⟩ true) (.query query) _ rfl (fun _ _ h => nomatch h) rfl
    hrefused⟩

/-- A score that is no number is committed, and the whole set can no longer be read. -/
theorem unreadable_undefined_score :
    ¬ ∀ (store : StoreRef) (clock : Instant) (history : List (Event StorageTask Unit))
        (y : StorageYard) (name : String) (kind : Kind),
      Yard.Run StorageTask.program (StorageTask.At store) (Yard.start clock) history y →
      (y.world.memory store).CountersFit → (name, kind) ∈ Kind.all →
      ∀ id d, (y.world.memory store).find? id = some d → id.collection = kind.collection →
        (kind.decode d).isOk := by
  intro hall
  let moves : List (Move StorageTask) := Move.whole 0 (Sample.scoring (.undefined false)) 2
  let last := (Yard.play StorageTask.program moves ([], Yard.start .origin)).2
  have hmoves : ∀ n task, .begin n task ∈ moves → task.At ⟨0⟩ := by
    intro n task hmem
    obtain ⟨_, rfl⟩ := Move.begin_mem_whole.mp hmem
    rfl
  have hunread : ((last.world.memory ⟨0⟩).find? (Document.idFor ScoredSet "a")).any fun d =>
      !((Kind.ofBlank ScoredSet).decode d).isOk := by
    decide +kernel
  obtain ⟨d, hd, hbad⟩ := (Option.any_eq_true _ _).mp hunread
  have hread := hall ⟨0⟩ .origin _ last "set" (.ofBlank ScoredSet) (Yard.run_play hmoves .refl)
    (by unfold Memory.CountersFit; decide +kernel) (by simp [Kind.all]) _ d hd rfl
  rw [hread] at hbad
  cases hbad

end StorageYard

end Simulation

end Jobyard
