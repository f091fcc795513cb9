import Jobyard.Connection.Server
import Jobyard.Proofs.Session.Dismissal
import Jobyard.Proofs.Simulation.Play
import Jobyard.Proofs.Storage.Conduct
import Jobyard.Proofs.Store.Recall

/-!
The removal of servers that have been silent for too long. It surveys the servers, and then it
deletes the silent ones in the versions that it saw, all or none. Meanwhile others may do what they
like: a server that they touched is not taken for silent, unless they removed it and announced it
again.
-/

namespace Jobyard

def Stored.isSilent (cutoff : Instant) (d : Stored) : Bool :=
  (Document.decode? d.body : Option Server).any fun server => server.lastHeartbeat.before cutoff

theorem map_filter_silent {found : List Stored} {servers : List (DocId × Server)}
    (hread : (found.mapM fun d => (d.decode Server).map fun server => (d.id, server)) =
      .ok servers) (cutoff : Instant) :
    (servers.filter fun entry => entry.2.lastHeartbeat.before cutoff).map (·.1) =
      (found.filter (Stored.isSilent cutoff)).map (·.id) := by
  induction found generalizing servers with
  | nil =>
      cases hread
      rfl
  | cons d rest ih =>
      rw [List.mapM_cons] at hread
      obtain ⟨entry, hentry, hread⟩ := bind_eq_ok.mp hread
      obtain ⟨others, hothers, hread⟩ := bind_eq_ok.mp hread
      cases hread
      unfold Stored.decode at hentry
      cases hdecode : (Document.decode? d.body : Option Server) with
      | none =>
          rw [hdecode] at hentry
          cases hentry
      | some server =>
          rw [hdecode] at hentry
          cases hentry
          have hsilent : d.isSilent cutoff = server.lastHeartbeat.before cutoff := by
            rw [Stored.isSilent, hdecode]
            rfl
          rw [List.filter_cons, List.filter_cons, hsilent]
          split
          · rw [List.map_cons, List.map_cons, ih hothers]
          · exact ih hothers

namespace Connection

open Work

def cutoff (timeout : Duration) (now : Instant) : Instant :=
  (now.minus? timeout.toSpan).getD .least

/-- What a removal of silent servers is told before it deletes any. -/
structure Survey where
  now : Instant
  found : List Stored

namespace Survey

def log (v : Survey) (store : StoreRef) : Log :=
  [⟨.store store (.query (Query.of Server)), .ok v.found⟩, ⟨.now, v.now⟩]

def silent (v : Survey) (timeout : Duration) : List Stored :=
  v.found.filter (Stored.isSilent (cutoff timeout v.now))

/-- A session that deletes just the silent servers, and their number, provided that no server was
found twice. -/
def Settles (v : Survey) (store : StoreRef) (timeout : Duration) (s : Session) (count : Nat) :
    Prop :=
  (v.found.map (·.id)).Nodup →
    s.Dismisses store (v.silent timeout) ∧ count = (v.silent timeout).length

theorem settles_of_gather (v : Survey) {store : StoreRef} {servers : List (DocId × Server)}
    {next : Session}
    (hgather : start (gather Server v.found) (.empty store true) = .done (.ok servers, next))
    (timeout : Duration) {gone : List (DocId × Server)}
    (hgone : (servers.filter fun entry =>
      entry.2.lastHeartbeat.before (cutoff timeout v.now)) = gone) :
    v.Settles store timeout (gone.foldl (fun s entry => s.delete entry.1) next) gone.length := by
  intro hnodup
  obtain ⟨last, hstart, hlast⟩ := start_gather_new (α := Server) (s := .empty store true)
    (fun _ _ => rfl) hnodup
  obtain ⟨hread, rfl⟩ := Prod.mk.inj (Interaction.done.inj (hgather.symm.trans hstart))
  have hids := map_filter_silent hread.symm (cutoff timeout v.now)
  rw [hgone] at hids
  rw [hlast servers hread.symm]
  refine ⟨Session.dismisses_deleteAll store hnodup (fun d hd => List.mem_of_mem_filter hd) hids, ?_⟩
  rw [← List.length_map (·.1), hids, List.length_map]
  rfl

end Survey

variable {c : Connection} {timeout : Duration}

def Surveys (c : Connection) (timeout : Duration) (log : Log) (request : Request) : Prop :=
  log.accepted? = none ∧ (request = .now ∨ request = .store c.store (.query (Query.of Server)) ∨
    ∃ (v : Survey) (s : Session) (count : Nat), log = v.log c.store ∧
      request = .store c.store (.commit s.batch) ∧ v.Settles c.store timeout s count)

/-- What a removal of silent servers returns: their number if there are none or if they are
deleted, and nothing is deleted if it fails. -/
def Reports (c : Connection) (timeout : Duration) (log : Log) : Except StoreError Nat → Prop
  | .ok count => ∃ (v : Survey) (s : Session), v.Settles c.store timeout s count ∧
      (log = v.log c.store ∧ s.batch.isEmpty ∨
        log = ⟨.store c.store (.commit s.batch), .ok ()⟩ :: v.log c.store)
  | .error _ => log.accepted? = none

theorem reports_removeTimedOutServers (c : Connection) (timeout : Duration) :
    (c.removeTimedOutServers timeout).run.Conforms (c.Surveys timeout) (c.Reports timeout) [] := by
  refine ⟨⟨rfl, .inl rfl⟩, fun now => ?_⟩
  change Program.Conforms _ _ _ ((Work.alone c.store _).run)
  rw [run_alone, start_bind]
  unfold query
  rw [start_bind, start_askStore]
  refine ⟨⟨rfl, .inr (.inl rfl)⟩, fun reply => ?_⟩
  cases reply with
  | error e => exact rfl
  | ok found =>
      let v : Survey := ⟨now, found⟩
      change Program.Conforms _ _ (v.log c.store)
        ((start (gather Server found) (Session.empty c.store true) >>= _) >>= _)
      obtain ⟨result, seen, hgather, _⟩ :=
        start_gather_observed Server found (.empty c.store true)
      rw [hgather, Interaction.done_bind]
      cases result with
      | error e => exact rfl
      | ok servers =>
          obtain ⟨gone, hgone⟩ : ∃ gone, (servers.filter fun entry =>
            entry.2.lastHeartbeat.before ((now.minus? timeout.toSpan).getD .least)) = gone :=
              ⟨_, rfl⟩
          have hsettles := v.settles_of_gather hgather timeout hgone
          have hstore := (Session.frames_observeAll seen (.empty c.store true)).store
          generalize seen.foldl Session.observe (.empty c.store true) = next at hsettles hstore ⊢
          simp only [hgone]
          rw [start_bind, start_deleteAll, Interaction.done_bind]
          simp only
          rw [start_bind, start_saveChanges]
          have hlast := (Session.frames_deleteAll gone next).store.trans hstore
          split
          · rename_i hempty
            exact ⟨v, _, hsettles, .inl ⟨rfl, hempty⟩⟩
          · rw [hlast]
            refine ⟨⟨rfl, .inr (.inr ⟨v, _, _, rfl, rfl, hsettles⟩)⟩, fun reply => ?_⟩
            cases reply with
            | error e => exact rfl
            | ok _ => exact ⟨v, _, hsettles, .inr rfl⟩

end Connection

namespace Simulation

open Connection

/-- Just the servers that a survey found silent are gone from a store. When they were deleted each
of them was silent still, unless it had been made anew since the survey. -/
structure World.Dismisses (w : World) (store : StoreRef) (v : Survey) (timeout : Duration)
    (next : World) : Prop where
  nodup : ((v.silent timeout).map (·.id)).Nodup
  find?_eq : ∀ id, (next.memory store).find? id =
    if id ∈ (v.silent timeout).map (·.id) then none else (w.memory store).find? id
  others : ∀ other, other ≠ store → next.memory other = w.memory other
  stored : ∀ d ∈ v.silent timeout, d.id.collection = Document.collection Server ∧
    ∃ current, (w.memory store).find? d.id = some current ∧
      (current.isSilent (cutoff timeout v.now) ∨ d.sequence < current.sequence)

section Removal

variable {τ : Type} {program : τ → Program (Except StoreError Nat)} {admits : τ → Prop}
  {y last : Yard τ (Except StoreError Nat)} {history : List (Event τ (Except StoreError Nat))}
  {clock : Instant} {n : Nat} {thread : Thread τ (Except StoreError Nat)} {c : Connection}
  {timeout : Duration}

theorem orderly_removals (c : Connection) (timeout : Duration)
    (hrun : Yard.Run program admits (.start clock) history y) :
    y.Orderly admits
      (fun task log request => program task = (c.removeTimedOutServers timeout).run →
        c.Surveys timeout log request)
      (fun task log result => program task = (c.removeTimedOutServers timeout).run →
        c.Reports timeout log result) := by
  induction hrun with
  | refl => exact Yard.orderly_start clock
  | step _ hstep ih =>
      refine ih.step (fun task _ => ?_) hstep
      by_cases htask : program task = (c.removeTimedOutServers timeout).run
      · rw [htask]
        exact ((c.reports_removeTimedOutServers timeout).weaken fun _ _ h _ => h).mono
          fun _ _ h _ => h
      · exact ((program task).conforms_true.weaken fun _ _ _ h => absurd h htask).mono
          fun _ _ _ h => absurd h htask

theorem dismisses_of_commit {w next : World} {v : Survey} {s : Session} {count : Nat}
    (hattests : y.Attests c.store) (hmemory : w.memory c.store = y.world.memory c.store)
    (hlog : y.logAt n = v.log c.store) (hsettles : v.Settles c.store timeout s count)
    (hcommit : (w.memory c.store).commit s.batch = .ok (next.memory c.store))
    (hothers : ∀ other, other ≠ c.store → next.memory other = w.memory other) :
    count = (v.silent timeout).length ∧ w.Dismisses c.store v timeout next := by
  have hmem : ⟨.store c.store (.query (Query.of Server)), .ok v.found⟩ ∈ y.logAt n := by
    rw [hlog]
    exact List.mem_cons_self
  obtain ⟨hnodup, hfound⟩ := hattests.found n _ _ hmem
  obtain ⟨hdismisses, hcount⟩ := hsettles hnodup
  obtain ⟨hversions, hgone⟩ := hdismisses.commit hcommit
  refine ⟨hcount, hnodup.sublist (List.filter_sublist.map _), hgone, hothers, fun d hd => ?_⟩
  obtain ⟨hseen, hsilent⟩ := List.mem_filter.mp hd
  obtain ⟨haccepts, hrecalls⟩ := hfound d hseen
  obtain ⟨current, hcurrent, hetag⟩ := hversions d hd
  refine ⟨beq_iff_eq.mp (Bool.and_eq_true_iff.mp haccepts).1, current, hcurrent, ?_⟩
  rcases hrecalls.find?_cases current (hmemory ▸ hcurrent) with hnew | hwritten | rfl
  · exact .inr hnew
  · omega
  · exact .inl hsilent

/-- A removal of silent servers, in any company: it changes nothing until it reports how many
servers it deleted, and then it deleted just the servers that it had found silent. None of them was
heard of meanwhile, unless it was removed and announced again. -/
theorem dismisses_of_removal (hrun : Yard.Run program admits (.start clock) history y)
    (hstep : Yard.Step program admits y (.proceeded n thread) last)
    (htask : program thread.task = (c.removeTimedOutServers timeout).run) :
    match thread.rest with
    | .done (.ok count) => ∃ v : Survey, (∀ exchange ∈ v.log c.store, exchange ∈ thread.log) ∧
        count = (v.silent timeout).length ∧ y.world.Dismisses c.store v timeout last.world
    | _ => ∀ store, last.world.memory store = y.world.memory store := by
  have hattests : y.Attests c.store := Yard.attests_of_run hrun
  have hlater := hattests.step hstep
  have horderly := orderly_removals c timeout hrun
  cases hstep with
  | proceeded n task log request next reply w hthread hreacts =>
      obtain ⟨_, hrequest, hrest⟩ := horderly n _ hthread
      obtain ⟨_, hrequests⟩ := hrequest htask
      have hrest := hrest reply
      cases haccepted : Exchange.accepted? ⟨request, reply⟩ with
      | none =>
          have hsame : ∀ store, w.memory store = y.world.memory store := by
            intro store
            rcases World.memory_of_unaccepted hattests.calm hreacts haccepted store with
              hsame | ⟨now, limit, rfl, _⟩ | rfl
            · exact hsame
            · rcases hrequests with heq | heq | ⟨_, _, _, _, heq, _⟩ <;> cases heq
            · rcases hrequests with heq | heq | ⟨_, _, _, _, heq, _⟩ <;> cases heq
          match hnext : next reply, hrest with
          | .done (.ok count), hrest =>
              obtain ⟨v, s, hsettles, ⟨hlog, hempty⟩ | hlog⟩ := hrest htask
              · have hcommit : (y.world.memory c.store).commit s.batch =
                    .ok (w.memory c.store) := by
                  rw [List.isEmpty_iff.mp hempty, hsame]
                  exact Memory.commit_nil _
                exact ⟨v, fun _ hmem => hlog ▸ hmem, dismisses_of_commit hlater (hsame _).symm
                  ((y.logAt_seat_self n _ w).trans hlog) hsettles hcommit fun _ _ => hsame _⟩
              · rw [(List.cons.inj hlog).1] at haccepted
                cases haccepted
          | .done (.error e), _ => exact hsame
          | .call _ _, _ => exact hsame
      | some batch =>
          have hcommitted : Log.accepted? (⟨request, reply⟩ :: log) ≠ none := by
            change Exchange.accepted? ⟨request, reply⟩ ≠ none
            rw [haccepted]
            exact nofun
          match hnext : next reply, hrest with
          | .done (.ok count), hrest =>
              obtain ⟨v, s, hsettles, ⟨hlog, _⟩ | hlog⟩ := hrest htask
              · rw [(List.cons.inj hlog).1] at haccepted
                cases haccepted
              · obtain ⟨hexchange, rfl⟩ := List.cons.inj hlog
                cases hexchange
                obtain ⟨_, heq, hcommit, hothers⟩ :=
                  World.commit_of_accepted hattests.calm hreacts haccepted
                cases heq
                cases haccepted
                exact ⟨v, fun _ hmem => List.mem_cons_of_mem _ hmem,
                  dismisses_of_commit hattests rfl (Yard.logAt_of_threads hthread) hsettles hcommit
                    hothers⟩
          | .done (.error e), hrest => exact absurd (hrest htask) hcommitted
          | .call _ _, hrest => exact absurd (hrest.1 htask).1 hcommitted

end Removal

inductive ServerTask
  | announce (server : String) (data : ServerData)
  | heartbeat (server : String)
  | remove (server : String)
  | removeTimedOut (timeout : Duration)
deriving DecidableEq

abbrev ServerYard := Yard ServerTask (Except StoreError Nat)

namespace ServerTask

def program (c : Connection) : ServerTask → Program (Except StoreError Nat)
  | announce server data => (c.announceServer server data >>= fun _ => pure 0 : Action Nat).run
  | heartbeat server => (c.heartbeat server >>= fun _ => pure 0 : Action Nat).run
  | remove server => (c.removeServer server >>= fun _ => pure 0 : Action Nat).run
  | removeTimedOut timeout => (c.removeTimedOutServers timeout).run

def time? : Exchange → Option Instant
  | ⟨.now, time⟩ => some time
  | _ => none

theorem eq_of_time? {exchange : Exchange} {time : Instant} (h : time? exchange = some time) :
    exchange = ⟨.now, time⟩ := by
  unfold time? at h
  split at h
  · cases h
    rfl
  · cases h

/-- What a program was begun for that has ended well, a time that it was told, and the number that
it returned. -/
def finished? (y : ServerYard) (n : Nat) : Option (ServerTask × Option Instant × Nat) :=
  match y.threads n with
  | some ⟨task, log, .done (.ok count)⟩ => some (task, log.findSome? time?, count)
  | _ => none

theorem exists_turn {y : ServerYard} {n : Nat} {task : ServerTask} {time : Instant} {count : Nat}
    (h : ((y.proceed? n).bind fun turn => finished? turn.2 n) = some (task, some time, count)) :
    ∃ log last, y.proceed? n = some (.proceeded n ⟨task, log, .done (.ok count)⟩, last) ∧
      ⟨.now, time⟩ ∈ log := by
  obtain ⟨⟨event, last⟩, hturn, hfinished⟩ := Option.bind_eq_some_iff.mp h
  obtain ⟨thread, rfl, hthread⟩ := Yard.threads_of_proceed hturn
  simp only [finished?, hthread] at hfinished
  split at hfinished
  · rename_i heq
    cases heq
    obtain ⟨htask, htold⟩ := Prod.mk.inj (Option.some.inj hfinished)
    obtain ⟨htold, hcount⟩ := Prod.mk.inj htold
    obtain ⟨exchange, hmem, htime⟩ := List.exists_of_findSome?_eq_some htold
    rw [htask, hcount] at hturn
    exact ⟨_, last, hturn, eq_of_time? htime ▸ hmem⟩
  · cases hfinished

def minute : Duration := .ofSeconds 60

def later : Instant := Instant.origin.expiresIn (.ofSeconds 3600)

/-- A server is announced and not heard of for an hour. Then a removal of silent servers surveys
them. -/
def surveyed : List (Move ServerTask) :=
  Move.whole 0 (.announce "a" .blank) 3 ++ [.clock later] ++
    Move.whole 1 (.removeTimedOut minute) 2

def after (moves : List (Move ServerTask)) : ServerYard :=
  (Yard.play (program Sample.connection) (surveyed ++ moves) ([], Yard.start .origin)).2

theorem run_after (moves : List (Move ServerTask)) :
    ∃ history, Yard.Run (program Sample.connection) (fun _ => True) (Yard.start .origin) history
      (after moves) :=
  ⟨_, Yard.run_play (fun _ _ _ => trivial) .refl⟩

def joined : ServerYard := after (Move.whole 2 (.announce "b" .blank) 3)

def rejoined : ServerYard :=
  after (Move.whole 2 (.remove "a") 1 ++ Move.whole 3 (.announce "a" .blank) 3)

end ServerTask

open ServerTask

/-- The silent server is removed, and the one that was announced meanwhile stays. -/
theorem dismisses_of_removal_joined :
    ∃ log last, Yard.Step (program Sample.connection) (fun _ => True) joined
        (.proceeded 1 ⟨.removeTimedOut minute, log, .done (.ok 1)⟩) last ∧
      (((last.world.memory ⟨0⟩).find? (Document.idFor Server "a")).isNone ∧
        ((last.world.memory ⟨0⟩).find? (Document.idFor Server "b")).isSome) ∧
      ∃ v : Survey, (∀ exchange ∈ v.log ⟨0⟩, exchange ∈ log) ∧
        1 = (v.silent minute).length ∧ joined.world.Dismisses ⟨0⟩ v minute last.world := by
  have hfinished : ((joined.proceed? 1).bind fun turn => finished? turn.2 1) =
      some (.removeTimedOut minute, some later, 1) := by
    decide +kernel
  obtain ⟨log, last, hturn, _⟩ := exists_turn hfinished
  obtain ⟨history, hrun⟩ := run_after (Move.whole 2 (.announce "b" .blank) 3)
  have hstep : Yard.Step (program Sample.connection) (fun _ => True) joined (.proceeded 1 _) last :=
    Yard.step_of_proceed hturn
  have hleft : ∀ turn ∈ joined.proceed? 1,
      ((turn.2.world.memory ⟨0⟩).find? (Document.idFor Server "a")).isNone ∧
        ((turn.2.world.memory ⟨0⟩).find? (Document.idFor Server "b")).isSome := by
    decide +kernel
  exact ⟨log, last, hstep, hleft _ hturn,
    dismisses_of_removal (c := Sample.connection) hrun hstep rfl⟩

/-- A server that announced itself anew is in its first version again and is removed. -/
theorem heard_of_removed :
    ¬ ∀ (c : Connection) (clock : Instant)
        (history : List (Event ServerTask (Except StoreError Nat))) (y last : ServerYard) (n : Nat)
        (timeout : Duration) (log : Log) (count : Nat),
      Yard.Run (program c) (fun _ => True) (Yard.start clock) history y →
      Yard.Step (program c) (fun _ => True) y
        (.proceeded n ⟨.removeTimedOut timeout, log, .done (.ok count)⟩) last →
      ∀ now, ⟨.now, now⟩ ∈ log → ∀ id d, (y.world.memory c.store).find? id = some d →
        (last.world.memory c.store).find? id = none → d.isSilent (cutoff timeout now) := by
  intro hall
  have hfinished : ((rejoined.proceed? 1).bind fun turn => finished? turn.2 1) =
      some (.removeTimedOut minute, some later, 1) := by
    decide +kernel
  obtain ⟨log, last, hturn, hnow⟩ := exists_turn hfinished
  obtain ⟨history, hrun⟩ :=
    run_after (Move.whole 2 (.remove "a") 1 ++ Move.whole 3 (.announce "a" .blank) 3)
  have hstep : Yard.Step (program Sample.connection) (fun _ => True) rejoined (.proceeded 1 _)
    last := Yard.step_of_proceed hturn
  have hgone : ∀ turn ∈ rejoined.proceed? 1,
      (turn.2.world.memory ⟨0⟩).find? (Document.idFor Server "a") = none := by
    decide +kernel
  have hlive : ((rejoined.world.memory ⟨0⟩).find? (Document.idFor Server "a")).any fun d =>
      !d.isSilent (cutoff minute later) := by
    decide +kernel
  obtain ⟨d, hd, hheard⟩ := (Option.any_eq_true _ _).mp hlive
  have hsilent := hall Sample.connection .origin history rejoined last 1 minute log 1 hrun hstep
    _ hnow _ d hd (hgone _ hturn)
  rw [hsilent] at hheard
  cases hheard

end Simulation

end Jobyard
