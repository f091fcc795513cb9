import Jobyard.Proofs.Job.Conduct
import Jobyard.Proofs.Simulation.Play

/-!
The histories of jobs are complete. Whatever transactions, connections and reapers do at the same
time, a job tells of everything that was done to it since its creation, and of nothing else.
-/

namespace Jobyard.Simulation

open CounterPlan (Asks)
open Yard (Published)

def reported? : Program JobReport → Option JobReport
  | .done report => some report
  | .call .. => none

def Event.report? : Event JobTask JobReport → Option JobReport
  | .proceeded _ thread => reported? thread.rest
  | _ => none

def continued (job : JobId) (report : Option JobReport) (life : Option JobLife) :
    Option JobLife :=
  report.elim life fun report => report.continue job life

/-- The life of a job as the reports of a history tell it, the latest of them first. -/
def lifeIn (job : JobId) : List (Event JobTask JobReport) → Option JobLife
  | [] => none
  | event :: earlier => continued job event.report? (lifeIn job earlier)

/-- What a turn with a certain report makes of a job: its life goes on, or the job is made. -/
inductive JobTurn (job : JobId) (m next : Memory) : Option JobReport → Prop
  | goesOn {report : Option JobReport} (f : JobLife → JobLife)
    (hlife : ∀ life, continued job report life = life.map f)
    (h : JobFate f (m.find? (Step.jobDocument job)) (next.find? (Step.jobDocument job))) :
    JobTurn job m next report
  | made {life : JobLife} (hnew : m.find? (Step.jobDocument job) = none)
    (htells : ∀ d, next.find? (Step.jobDocument job) = some d → d.Tells life) :
    JobTurn job m next (some (.created job life))

namespace JobTurn

variable {job : JobId} {m middle next : Memory} {report : Option JobReport}

theorem of_silent (hlife : ∀ life, continued job report life = life)
    (hkept : next.find? (Step.jobDocument job) = m.find? (Step.jobDocument job) ∨
      next.find? (Step.jobDocument job) = none) : JobTurn job m next report :=
  .goesOn id (fun life => (hlife life).trans (Option.map_id_fun ▸ rfl)) (JobFate.of_kept hkept)

theorem purged (h : JobTurn job m middle report)
    (hkept : next.find? (Step.jobDocument job) = middle.find? (Step.jobDocument job) ∨
      next.find? (Step.jobDocument job) = none) : JobTurn job m next report := by
  cases h with
  | goesOn f hlife h =>
      refine .goesOn f hlife ?_
      rcases hkept with hsame | hnone
      · rw [hsame]
        exact h
      · rw [hnone]
        exact .gone _
  | made hnew htells =>
      refine .made hnew fun d hd => ?_
      rcases hkept with hsame | hnone
      · exact htells d (hsame ▸ hd)
      · rw [hnone] at hd
        cases hd

end JobTurn

theorem Accounts.turn {store : StoreRef} {log : Log} {report : JobReport} {m next : Memory}
    (h : Accounts store log report)
    (hdates : ∀ job d, (∃ exchange ∈ log, exchange.Loads store (Step.jobDocument job) d) →
      m.Dates (Step.jobDocument job) d)
    (hcommit : m.commit (log.accepted?.getD []) = .ok next) (job : JobId) :
    JobTurn job m next (some report) := by
  cases h with
  | transacted s h hbatch =>
      rw [← hbatch] at hcommit
      exact .goesOn _ (fun _ => rfl) (h.fate hdates hcommit job)
  | @created key life j expiresAt htells earlier hlog =>
      subst hlog
      change m.commit [_] = _ at hcommit
      rw [Memory.commit_singleton] at hcommit
      obtain ⟨hnew, ⟨d, hfound, hbody, _⟩, hothers⟩ := Memory.write_put_absent hcommit
      by_cases hjob : ⟨key⟩ = job
      · subst hjob
        refine .made hnew fun other hother => ?_
        cases hfound.symm.trans hother
        exact Stored.tells_encode hbody htells
      · exact .of_silent (fun _ => if_neg hjob)
          (.inl (hothers _ (Step.jobDocument_injective.ne (Ne.symm hjob))))
  | @parameterSet target name value d j hloads hread haccepted =>
      rw [haccepted, Option.getD_some] at hcommit
      by_cases hjob : target = job
      · subst hjob
        have hrewrites := Memory.rewrites_of_commit hcommit (Step.jobDocument target)
        rw [List.filter_cons_of_pos (by simp [Write.id]), List.filter_nil] at hrewrites
        refine .goesOn (·.withParameter name value) (fun _ => if_pos rfl)
          (.of_put (hdates target d hloads) hrewrites fun life final hfinal => ?_)
        rintro ⟨first, hfirst, htells⟩
        cases hread.symm.trans hfirst
        exact Stored.tells_encode hfinal (htells.withParameter name value)
      · obtain ⟨_, _, _, _, hothers⟩ := Memory.commit_put_exact hcommit
        refine .of_silent (fun _ => if_neg hjob) (.inl (hothers _ ?_))
        exact Step.jobDocument_injective.ne (Ne.symm hjob)
  | nothing haccepted =>
      rw [haccepted, Option.getD_none, Memory.commit_nil] at hcommit
      cases hcommit
      exact .of_silent (fun _ => rfl) (.inl rfl)

section Turns

variable {store : StoreRef} {w next : World} {log : Log} {request : Request}
  {reply : request.Reply} {rest : Program JobReport}

theorem turn_of_writer (hcalm : w.Calm) (hreacts : w.Reacts request reply next)
    (hasks : Asks store log request)
    (hrest : rest.Conforms (Asks store) (Accounts store) (⟨request, reply⟩ :: log))
    (hdates : ∀ job d, (∃ exchange ∈ (⟨request, reply⟩ :: log : Log),
      exchange.Loads store (Step.jobDocument job) d) →
        (w.memory store).Dates (Step.jobDocument job) d) (job : JobId) :
    JobTurn job (w.memory store) (next.memory store) (reported? rest) := by
  have hlatest : Log.accepted? (⟨request, reply⟩ :: log) = Exchange.accepted? ⟨request, reply⟩ :=
    rfl
  -- What the accepted batch, if there is one, makes of the store; a purge may follow.
  have hbatch : ∃ middle,
      (w.memory store).commit ((Log.accepted? (⟨request, reply⟩ :: log)).getD []) = .ok middle ∧
        ∀ id, (next.memory store).find? id = middle.find? id ∨
          (next.memory store).find? id = none := by
    rw [hlatest]
    cases haccepted : Exchange.accepted? ⟨request, reply⟩ with
    | none =>
        exact ⟨_, Memory.commit_nil _, World.find?_of_unaccepted hcalm hreacts haccepted store⟩
    | some batch =>
        obtain ⟨target, rfl, hcommit, _⟩ := World.commit_of_accepted hcalm hreacts haccepted
        cases hasks.2 target batch rfl
        exact ⟨_, hcommit, fun _ => .inl rfl⟩
  obtain ⟨middle, hcommit, hkept⟩ := hbatch
  cases rest with
  | done report => exact (Accounts.turn hrest hdates hcommit job).purged (hkept _)
  | call asked more =>
      rw [hrest.1.1, Option.getD_none, Memory.commit_nil] at hcommit
      cases hcommit
      exact .of_silent (fun _ => rfl) (hkept _)

theorem turn_of_spared {allowed : Log → Request → Prop} (hcalm : w.Calm)
    (hreacts : w.Reacts request reply next) (hspares : SparesJobs store log request)
    (hrest : rest.Conforms allowed (fun _ report => report = .nothing) (⟨request, reply⟩ :: log))
    (job : JobId) : JobTurn job (w.memory store) (next.memory store) (reported? rest) := by
  have hlife : ∀ life, continued job (reported? rest) life = life := by
    intro life
    cases rest with
    | done report =>
        cases show report = .nothing from hrest
        rfl
    | call => rfl
  refine .of_silent hlife ?_
  cases haccepted : Exchange.accepted? ⟨request, reply⟩ with
  | none => exact World.find?_of_unaccepted hcalm hreacts haccepted store _
  | some batch =>
      obtain ⟨target, rfl, hcommit, hothers⟩ := World.commit_of_accepted hcalm hreacts haccepted
      left
      by_cases htarget : store = target
      · subst htarget
        exact Memory.find?_commit_of_forall_ne hcommit fun w hw => hspares batch rfl w hw job
      · rw [hothers store htarget]

end Turns

abbrev JobYard := Yard JobTask JobReport

namespace JobYard

/-- A yard in which every job tells of the life that the history gives it, and every version that a
program has seen is still told from all others by its number. -/
structure Sound (store : StoreRef) (history : List (Event JobTask JobReport)) (y : JobYard) :
    Prop where
  calm : y.world.Calm
  orderly : y.Orderly (JobTask.At store) (JobTask.allowed store) (JobTask.ends store)
  apart : y.Apart
  jobs : ∀ job d, (y.world.memory store).find? (Step.jobDocument job) = some d →
    Published y (Step.jobDocument job) ∧ ∃ life, lifeIn job history = some life ∧ d.Tells life
  loads : ∀ n, ∀ exchange ∈ y.logAt n, ∀ job d, exchange.Loads store (Step.jobDocument job) d →
    Published y (Step.jobDocument job) ∧ (y.world.memory store).Dates (Step.jobDocument job) d

theorem sound_start (store : StoreRef) (clock : Instant) : Sound store [] (Yard.start clock) where
  calm := World.calm_start clock
  orderly := Yard.orderly_start clock
  apart := Yard.apart_start clock
  jobs _ _ h := nomatch h
  loads _ _ h := nomatch h

variable {store : StoreRef} {history : List (Event JobTask JobReport)} {y last : JobYard}
  {event : Event JobTask JobReport}

theorem Sound.turn (h : Sound store history y)
    (hstep : Yard.Step JobTask.program (JobTask.At store) y event last) (job : JobId) :
    JobTurn job (y.world.memory store) (last.world.memory store) event.report? := by
  cases hstep with
  | began n task hfree hat => exact .of_silent (fun _ => rfl) (.inl rfl)
  | clocked time => exact .of_silent (fun _ => rfl) (.inl rfl)
  | proceeded n task log request next reply w hthread hreacts =>
      obtain ⟨_, hallowed, hnext⟩ := h.orderly n _ hthread
      have hdates : ∀ job d, (∃ exchange ∈ (⟨request, reply⟩ :: log : Log),
          exchange.Loads store (Step.jobDocument job) d) →
            (y.world.memory store).Dates (Step.jobDocument job) d := by
        rintro job d ⟨exchange, hmem, hloads⟩
        rcases List.mem_cons.mp hmem with rfl | hearlier
        · intro current hcurrent
          have hfound := (World.find?_of_loads h.calm hreacts hloads).1
          exact .inr (Option.some.inj (hfound.symm.trans hcurrent))
        · have hheard : exchange ∈ y.logAt n := by
            rw [Yard.logAt_of_threads hthread]
            exact hearlier
          exact (h.loads n exchange hheard job d hloads).2
      change JobTurn job (y.world.memory store) (w.memory store) (reported? (next reply))
      cases task with
      | reap r rounds => exact turn_of_spared h.calm hreacts hallowed (hnext reply) job
      | other p => exact turn_of_spared h.calm hreacts hallowed (hnext reply) job
      | _ => exact turn_of_writer h.calm hreacts hallowed (hnext reply) hdates job

/-- A job is made under a text that its program drew for itself, by its only write. -/
theorem Sound.published_of_made (h : Sound store history y)
    (hstep : Yard.Step JobTask.program (JobTask.At store) y event last) {job : JobId}
    {life : JobLife} (hmade : event.report? = some (.created job life)) :
    ¬ Published y (Step.jobDocument job) ∧ Published last (Step.jobDocument job) := by
  cases hstep with
  | began n task hfree hat => cases hmade
  | clocked time => cases hmade
  | proceeded n task log request next reply w hthread hreacts =>
      obtain ⟨_, _, hnext⟩ := h.orderly n _ hthread
      have hrest := hnext reply
      generalize hended : next reply = rest at hrest
      have hreport : rest = .done (.created job life) := by
        change reported? (next reply) = _ at hmade
        rw [hended] at hmade
        cases rest with
        | done report =>
            cases hmade
            rfl
        | call => cases hmade
      subst hreport
      -- Reapers and programs that leave jobs alone have nothing to report.
      have hends : Accounts store (⟨request, reply⟩ :: log) (.created job life) := by
        cases task with
        | reap r rounds => cases show JobReport.created job life = .nothing from hrest
        | other p => cases show JobReport.created job life = .nothing from hrest
        | _ => exact hrest
      cases hends with
      | created htells earlier hlog hdrawn hnone =>
          obtain ⟨hlatest, rfl⟩ := List.cons.inj hlog
          have hlogAt := Yard.logAt_of_threads hthread
          constructor
          · -- Whoever drew this text is this program, which has written nothing before.
            rintro ⟨k, hk, hcommitted⟩
            obtain rfl := h.apart.apart k n _ hk (hlogAt ▸ hdrawn)
            rw [hlogAt] at hcommitted
            exact hnone hcommitted
          · refine ⟨n, ?_, ?_⟩
            · rw [Yard.logAt_seat_self, hlatest, Log.drawn_of_ne_freshText (by simp)]
              exact hdrawn
            · rw [Yard.logAt_seat_self, hlatest]
              exact ⟨_, List.mem_cons_self, rfl⟩

theorem Sound.jobs_step (h : Sound store history y)
    (hstep : Yard.Step JobTask.program (JobTask.At store) y event last) {job : JobId} {d : Stored}
    (hfound : (last.world.memory store).find? (Step.jobDocument job) = some d) :
    Published last (Step.jobDocument job) ∧
      ∃ life, lifeIn job (event :: history) = some life ∧ d.Tells life := by
  have hturn := h.turn hstep job
  generalize hreport : event.report? = report at hturn
  cases hturn with
  | goesOn f hlife hfate =>
      rw [hfound] at hfate
      obtain ⟨current, hcurrent⟩ := hfate.exists_of_some
      obtain ⟨hpublished, life, hearlier, htells⟩ := h.jobs job current hcurrent
      rw [hcurrent] at hfate
      refine ⟨hpublished.step hstep, f life, ?_, hfate.tells htells⟩
      rw [lifeIn, hreport, hlife, hearlier, Option.map_some]
  | made hnew htells =>
      refine ⟨(h.published_of_made hstep hreport).2, _, ?_, htells d hfound⟩
      rw [lifeIn, hreport]
      exact if_pos rfl

theorem Sound.loads_step (h : Sound store history y)
    (hstep : Yard.Step JobTask.program (JobTask.At store) y event last) {n : Nat}
    {exchange : Exchange} (hmem : exchange ∈ last.logAt n) {job : JobId} {d : Stored}
    (hloads : exchange.Loads store (Step.jobDocument job) d) :
    Published last (Step.jobDocument job) ∧
      (last.world.memory store).Dates (Step.jobDocument job) d := by
  rcases hstep.logAt_cases hmem with hearlier | ⟨request, reply, rfl, hreacts⟩
  · obtain ⟨hpublished, hdates⟩ := h.loads n exchange hearlier job d hloads
    refine ⟨hpublished.step hstep, ?_⟩
    have hturn := h.turn hstep job
    generalize hreport : event.report? = report at hturn
    cases hturn with
    | goesOn f hlife hfate => exact hfate.dates hdates
    | made => exact absurd hpublished (h.published_of_made hstep hreport).1
  · obtain ⟨hfound, hsame⟩ := World.find?_of_loads h.calm hreacts hloads
    rw [← hsame] at hfound
    refine ⟨(h.jobs_step hstep hfound).1, fun current hcurrent => .inr ?_⟩
    exact Option.some.inj (hfound.symm.trans hcurrent)

theorem Sound.step (h : Sound store history y)
    (hstep : Yard.Step JobTask.program (JobTask.At store) y event last) :
    Sound store (event :: history) last where
  calm := hstep.calm h.calm
  orderly := h.orderly.step (fun _ hat => JobTask.conforms hat) hstep
  apart := h.apart.step h.calm hstep
  jobs _ _ hfound := h.jobs_step hstep hfound
  loads _ _ hmem _ _ hloads := h.loads_step hstep hmem hloads

theorem sound_of_run {clock : Instant}
    (hrun : Yard.Run JobTask.program (JobTask.At store) (Yard.start clock) history y) :
    Sound store history y := by
  induction hrun with
  | refl => exact sound_start store clock
  | step _ hstep ih => exact ih.step hstep

/-- As long as a job exists, it tells of its whole life: its history is the states of the committed
transactions, its parameters are those that were set, and nothing else has changed. -/
theorem history_complete {clock : Instant} {job : JobId} {d : Stored}
    (hrun : Yard.Run JobTask.program (JobTask.At store) (Yard.start clock) history y)
    (hexists : (y.world.memory store).find? (Step.jobDocument job) = some d) :
    ∃ (j : Job) (life : JobLife), Document.decode? d.body = some j ∧
      lifeIn job history = some life ∧ j.Tells life := by
  obtain ⟨_, life, hlife, j, hread, htells⟩ := (sound_of_run hrun).jobs job d hexists
  exact ⟨j, life, hread, hlife, htells⟩

namespace Sample

def job : JobId := ⟨freshText 1⟩

def entering (name : String) (next : TransactionPlan) : TransactionPlan :=
  .perform (.edit (.setJobState job (.named name))) fun _ => next

def persisted : TransactionPlan := .perform (.edit (.persistJob job)) fun _ => .commit

/-- A transaction loads the job, and another one commits to it first, so that it fails. It is tried
again after a parameter was set. Then a reaper finds nothing to purge. -/
def moves : List (Move JobTask) :=
  Move.whole 0 (.create Sample.connection .blank ∅ .origin ⟨1000⟩) 2 ++
    Move.whole 1 (.transact Sample.connection (entering "Failed" .commit)) 2 ++
    Move.whole 2
      (.transact Sample.connection (entering "Enqueued" (entering "Processing" .commit))) 4 ++
    [.turn 1] ++ Move.whole 3 (.setParameter Sample.connection job "retries" "1") 2 ++
    Move.whole 4 (.transact Sample.connection (entering "Failed" persisted)) 3 ++
    [.clock (timeNamed "max")] ++ Move.whole 5 (.reap ⟨⟨0⟩, 10⟩ 5) 2

def played : List (Event JobTask JobReport) × JobYard :=
  Yard.play JobTask.program moves ([], Yard.start .origin)

theorem at_of_mem_moves (n : Nat) (task : JobTask) (h : .begin n task ∈ moves) : task.At ⟨0⟩ := by
  have hentering : ∀ (plan : TransactionPlan) (name : String), plan.All Operation.IsEdit →
      (entering name plan).All Operation.IsEdit := fun _ _ hplan => ⟨trivial, fun _ => hplan⟩
  simp only [moves, List.mem_append, List.mem_singleton, Move.begin_mem_whole, reduceCtorEq,
    or_false] at h
  rcases h with ((((⟨_, rfl⟩ | ⟨_, rfl⟩) | ⟨_, rfl⟩) | ⟨_, rfl⟩) | ⟨_, rfl⟩) | ⟨_, rfl⟩
  · rfl
  · exact ⟨rfl, hentering .commit _ trivial⟩
  · exact ⟨rfl, hentering _ _ (hentering .commit _ trivial)⟩
  · rfl
  · exact ⟨rfl, hentering persisted _ ⟨trivial, fun _ => trivial⟩⟩
  · trivial

theorem run_played :
    Yard.Run JobTask.program (JobTask.At ⟨0⟩) (Yard.start .origin) played.1 played.2 := by
  unfold played
  exact Yard.run_play at_of_mem_moves .refl

end Sample

theorem history_of_retried :
    ∃ (d : Stored) (j : Job),
      (Sample.played.2.world.memory ⟨0⟩).find? (Step.jobDocument Sample.job) = some d ∧
      Document.decode? d.body = some j ∧
      j.history.map (·.state) = [.named "Failed", .named "Processing", .named "Enqueued"] ∧
      j.state = some (.named "Failed") ∧ j.parameters = Dict.ofList [("retries", "1")] := by
  have hplayed : ((Sample.played.2.world.memory ⟨0⟩).find? (Step.jobDocument Sample.job)).isSome ∧
      lifeIn Sample.job Sample.played.1 = some ⟨.blank, .origin, Dict.ofList [("retries", "1")],
        [.named "Failed", .named "Processing", .named "Enqueued"]⟩ := by
    decide +kernel
  obtain ⟨hstored, hlife⟩ := hplayed
  obtain ⟨d, hd⟩ := Option.isSome_iff_exists.mp hstored
  obtain ⟨j, life, hread, htold, htells⟩ :=
    history_complete Sample.run_played hd
  cases hlife.symm.trans htold
  exact ⟨d, j, hd, hread, htells.history, htells.state, htells.parameters⟩

end JobYard

end Jobyard.Simulation
