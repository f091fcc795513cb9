import Jobyard.Proofs.Counter.Plan
import Jobyard.Proofs.Job.Record
import Jobyard.Proofs.Simulation.Play

/-!
The conduct of everything that writes to jobs. Transactions, creations and settings of parameters
send one batch at most, as their last request, and report what it stands for.
-/

namespace Jobyard

open CounterPlan (Asks)

def Operation.IsEdit : Operation → Prop
  | edit _ => True
  | addToQueue .. => False

namespace TransactionPlan

def Settlement.landed : Settlement → List Operation
  | ⟨done, some (.ok _)⟩ => done
  | _ => []

variable {store : StoreRef} {log : Log} {ops : List Operation} {t : Transaction}

theorem asks_of_observes {request : Request} (h : Work.Observes store log request) :
    Asks store log request := by
  refine ⟨h.1, fun target batch heq => ?_⟩
  rcases h.2 with hnow | ⟨ids, hload⟩
  · cases hnow.symm.trans heq
  · cases hload.symm.trans heq

theorem conforms_recorded {e : Edit} (hopen : log.accepted? = none) (hwaits : t.afterCommit = [])
    (h : t.session.Records store log ops) :
    (e.step.start t).Conforms (Asks store)
      (fun log result => log.accepted? = none ∧ result.2.afterCommit = [] ∧
        result.2.session.Records store log
          (if result.1.isOk then ops ++ [.edit e] else ops)) log := by
  have hstable : ∀ log exchange, t.session.Records store log ops →
      t.session.Records store (exchange :: log) ops := fun _ exchange h => h.cons exchange
  have hstep := (e.conforms_step t hopen).and_of_stable h hstable
  rw [h.store] at hstep
  replace hstep := hstep.weaken fun _ _ => asks_of_observes
  refine hstep.mono fun log result ⟨⟨hopen, next, hnext, hends⟩, h⟩ => ?_
  obtain ⟨result, t⟩ := result
  cases hnext
  refine ⟨hopen, hwaits, ?_⟩
  rcases hends with ⟨failure, rfl, rfl⟩ | ⟨seen, now, hseen, hyields⟩
  · exact h
  · generalize houtcome : e.handling now seen = outcome at hyields
    cases hyields with
    | amended hamends =>
      unfold Edit.handling Handling.revise at houtcome
      split at houtcome
      · rename_i hrevise
        cases houtcome
        exact h.edited hseen hrevise hamends
      · cases houtcome
        exact h.failed hseen hamends

theorem conforms_landed (hopen : log.accepted? = none) (hwaits : t.afterCommit = [])
    (h : t.session.Records store log ops) :
    (Step.commit.start t).Conforms (Asks store)
      (fun log result => ∃ s : Session,
        s.Records store log (Settlement.landed ⟨ops, some result.1⟩) ∧
          s.batch = log.accepted?.getD []) log := by
  rw [Step.start_commit, Work.start_saveChanges, hwaits]
  split
  · rename_i hempty
    refine ⟨t.session, h, ?_⟩
    rw [hopen]
    exact List.isEmpty_iff.mp hempty
  · rw [h.store]
    refine ⟨⟨hopen, fun _ _ heq => ?_⟩, fun reply => ?_⟩
    · cases heq
      rfl
    · cases reply with
      | ok _ => exact ⟨t.session, h.cons _, rfl⟩
      | error e => exact ⟨_, Session.records_empty store _, rfl⟩

theorem conforms_records {plan : TransactionPlan} (hedits : plan.All Operation.IsEdit)
    (c : Connection) :
    (plan.program c.transaction []).Conforms (Asks c.store)
      (fun log settlement => ∃ s : Session, s.Records c.store log settlement.landed ∧
        s.batch = log.accepted?.getD []) [] := by
  have hdrop : ∀ log, log.accepted? = none → ∃ s : Session,
      s.Records c.store log [] ∧ s.batch = log.accepted?.getD [] := by
    intro log hopen
    refine ⟨_, Session.records_empty c.store log, ?_⟩
    rw [hopen]
    rfl
  refine plan.conforms (fun log ops t => log.accepted? = none ∧ t.afterCommit = [] ∧
      t.session.Records c.store log ops) (fun log _ _ h => hdrop log h.1)
    (fun _ _ _ h => conforms_landed h.1 h.2.1 h.2.2) (fun op hedit log ops t h => ?_) hedits
    ⟨rfl, rfl, Session.records_empty c.store []⟩
  cases op with
  | edit e => exact conforms_recorded h.1 h.2.1 h.2.2
  | addToQueue queue jobId => cases hedit

end TransactionPlan

namespace Simulation

inductive JobTask
  | transact (c : Connection) (plan : TransactionPlan)
  | create (c : Connection) (invocation : InvocationData) (parameters : Dict String String)
    (createdAt : Instant) (length : Duration)
  | setParameter (c : Connection) (job : JobId) (name value : String)
  | reap (r : Reaper) (rounds : Nat)
  | other (p : Program Unit)

/-- What a task says at its end that it did to jobs. -/
inductive JobReport
  | transacted (settlement : TransactionPlan.Settlement)
  | created (job : JobId) (life : JobLife)
  | parameterSet (job : JobId) (name value : String)
  | nothing

def JobReport.continue (job : JobId) : JobReport → Option JobLife → Option JobLife
  | transacted settlement, life => life.map (·.enter (enteredBy job settlement.landed))
  | created made life, before => if made = job then some life else before
  | parameterSet target name value, life =>
    if target = job then life.map (·.withParameter name value) else life
  | nothing, life => life

def SparesJobs (store : StoreRef) (_ : Log) (request : Request) : Prop :=
  ∀ batch, request = .store store (.commit batch) → ∀ w ∈ batch, ∀ job,
    w.id ≠ Step.jobDocument job

/-- What stands behind a report: the batch that has just been accepted, if there was one. -/
inductive Accounts (store : StoreRef) (log : Log) : JobReport → Prop
  | transacted {settlement : TransactionPlan.Settlement} (s : Session)
    (h : s.Records store log settlement.landed) (hbatch : s.batch = log.accepted?.getD []) :
    Accounts store log (.transacted settlement)
  | created {key : String} {life : JobLife} {j : Job} {expiresAt : Option Instant}
    (htells : j.Tells life) (earlier : Log) (hlog : log = ⟨.store store (.commit [.put
      (Document.idFor Job key) (Document.encode j) expiresAt .absent]), .ok ()⟩ :: earlier)
    (hdrawn : key ∈ earlier.drawn) (hnone : ¬ earlier.Committed) :
    Accounts store log (.created ⟨key⟩ life)
  | parameterSet {job : JobId} {name value : String} {d : Stored} {j : Job}
    (hloads : ∃ exchange ∈ log, exchange.Loads store (Step.jobDocument job) d)
    (hread : Document.decode? d.body = some j)
    (haccepted : log.accepted? = some [.put (Step.jobDocument job)
      (Document.encode (j.withParameter name value)) d.expiresAt (.exact d.etag)]) :
    Accounts store log (.parameterSet job name value)
  | nothing (haccepted : log.accepted? = none) : Accounts store log .nothing

namespace JobTask

def program : JobTask → Program JobReport
  | transact c plan => plan.program c.transaction [] >>= fun settlement =>
    pure (.transacted settlement)
  | create c invocation parameters createdAt length =>
    (c.createExpiredJob invocation parameters createdAt length).run >>= fun result =>
      match result with
      | .ok job => pure (.created job ⟨invocation, createdAt, parameters, []⟩)
      | .error _ => pure .nothing
  | setParameter c job name value => (c.setJobParameter job name value).run >>= fun result =>
    match result with
    | .ok _ => pure (.parameterSet job name value)
    | .error _ => pure .nothing
  | reap r rounds => (r.runOnce rounds).run >>= fun _ => pure .nothing
  | other p => p >>= fun _ => pure .nothing

/-- Whether a task is one for a store. Transactions consist of edits, and whatever else goes on
leaves jobs alone. -/
def At (store : StoreRef) : JobTask → Prop
  | transact c plan => c.store = store ∧ plan.All Operation.IsEdit
  | create c .. | setParameter c .. => c.store = store
  | reap .. => True
  | other p => p.Conforms (SparesJobs store) (fun _ _ => True) []

def allowed (store : StoreRef) : JobTask → Log → Request → Prop
  | reap .. | other _ => SparesJobs store
  | _ => Asks store

def ends (store : StoreRef) : JobTask → Log → JobReport → Prop
  | reap .. | other _ => fun _ report => report = .nothing
  | _ => Accounts store

variable {store : StoreRef}

theorem conforms_create (c : Connection) (invocation : InvocationData)
    (parameters : Dict String String) (createdAt : Instant) (length : Duration) :
    (create c invocation parameters createdAt length).program.Conforms (Asks c.store)
      (Accounts c.store) [] := by
  simp only [program]
  rw [Connection.run_createExpiredJob]
  refine ⟨⟨rfl, fun _ _ heq => nomatch heq⟩, fun key => ⟨⟨rfl, fun _ _ heq => ?_⟩, fun reply => ?_⟩⟩
  · cases heq
    rfl
  · cases reply with
    | error e => exact .nothing rfl
    | ok _ =>
        refine .created (Job.tells_initial invocation parameters createdAt) [⟨.freshText, key⟩] rfl
          (List.mem_singleton.mpr rfl) ?_
        exact Log.not_committed_cons _ rfl Log.not_committed_nil

theorem conforms_setParameter (c : Connection) (job : JobId) (name value : String) :
    (setParameter c job name value).program.Conforms (Asks c.store) (Accounts c.store) [] := by
  simp only [program]
  rw [Connection.run_setJobParameter]
  refine ⟨⟨rfl, fun _ _ heq => nomatch heq⟩, fun reply => ?_⟩
  match reply with
  | .error e => exact .nothing rfl
  | .ok [] => exact .nothing rfl
  | .ok (none :: _) => exact .nothing rfl
  | .ok (some d :: rest) =>
      simp only
      cases hread : (Document.decode? d.body : Option Job) with
      | none => exact .nothing rfl
      | some j =>
          refine ⟨⟨rfl, fun _ _ heq => ?_⟩, fun reply => ?_⟩
          · cases heq
            rfl
          · cases reply with
            | error e => exact .nothing rfl
            | ok _ =>
                refine .parameterSet ⟨_, List.mem_cons_of_mem _ List.mem_cons_self, rfl, ?_⟩ hread
                  rfl
                exact List.mem_cons_self

theorem conforms {task : JobTask} (hat : task.At store) :
    task.program.Conforms (task.allowed store) (task.ends store) [] := by
  cases task with
  | transact c plan =>
      obtain ⟨rfl, hedits⟩ := hat
      refine (TransactionPlan.conforms_records hedits c).bind fun log settlement h => ?_
      obtain ⟨s, hrecords, hbatch⟩ := h
      exact .transacted s hrecords hbatch
  | create c invocation parameters createdAt length =>
      cases hat
      exact conforms_create c invocation parameters createdAt length
  | setParameter c job name value =>
      cases hat
      exact conforms_setParameter c job name value
  | reap r rounds =>
      exact (r.conforms_runOnce rounds (fun _ _ heq => nomatch heq)
        fun _ _ _ _ heq => nomatch heq).bind fun _ _ _ => rfl
  | other p => exact hat.bind fun _ _ _ => rfl

end JobTask

end Simulation

end Jobyard
