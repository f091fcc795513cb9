import Jobyard.Proofs.Connection.Job
import Jobyard.Proofs.Document.RoundTrip
import Jobyard.Proofs.Store.Rewrite

/-!
The lives of jobs: how a job was created, the states that it entered since, and what has become of
its parameters. A stored job tells of its life.
-/

namespace Jobyard

theorem Step.jobDocument_injective : Function.Injective jobDocument := by
  rintro ⟨text⟩ ⟨other⟩ hsame
  exact congrArg JobId.mk (congrArg DocId.key hsame)

structure JobLife where
  invocation : InvocationData
  createdAt : Instant
  parameters : Dict String String
  /-- The latest state comes first. -/
  states : List JobState
deriving DecidableEq

namespace JobLife

def enter (life : JobLife) (states : List JobState) : JobLife :=
  { life with states := states ++ life.states }

def withParameter (life : JobLife) (name value : String) : JobLife :=
  { life with parameters := life.parameters.insert name value }

end JobLife

structure Job.Tells (j : Job) (life : JobLife) : Prop where
  invocation : j.invocation = life.invocation
  createdAt : j.createdAt = life.createdAt
  parameters : j.parameters = life.parameters
  history : j.history.map (·.state) = life.states
  state : j.state = life.states.head?

/-- A job after it entered some states, one after the other; the latest comes first. -/
inductive Job.Enters (j : Job) : List JobState → Job → Prop
  | refl : Enters j [] j
  | step {states : List JobState} {next : Job} (state : JobState) (now : Instant)
    (h : Enters j states next) : Enters j (state :: states) (next.enter state now)

namespace Job

variable {j next : Job} {life : JobLife} {states : List JobState}

theorem tells_initial (invocation : InvocationData) (parameters : Dict String String)
    (createdAt : Instant) :
    (initial invocation parameters createdAt).Tells ⟨invocation, createdAt, parameters, []⟩ :=
  ⟨rfl, rfl, rfl, rfl, rfl⟩

theorem Tells.enter (h : j.Tells life) (state : JobState) (now : Instant) :
    (j.enter state now).Tells (life.enter [state]) where
  invocation := h.invocation
  createdAt := h.createdAt
  parameters := h.parameters
  history := congrArg (state :: ·) h.history
  state := rfl

theorem Tells.enters (h : j.Tells life) (henters : j.Enters states next) :
    next.Tells (life.enter states) := by
  induction henters with
  | refl => exact h
  | step state now _ ih => exact ih.enter state now

theorem Tells.withParameter (h : j.Tells life) (name value : String) :
    (j.withParameter name value).Tells (life.withParameter name value) where
  invocation := h.invocation
  createdAt := h.createdAt
  parameters := congrArg (·.insert name value) h.parameters
  history := h.history
  state := h.state

end Job

def Stored.Tells (d : Stored) (life : JobLife) : Prop :=
  ∃ j : Job, Document.decode? d.body = some j ∧ j.Tells life

theorem Stored.tells_encode {d : Stored} {j : Job} {life : JobLife}
    (hbody : d.body = Document.encode j) (h : j.Tells life) : d.Tells life :=
  ⟨j, hbody ▸ j.lasting, h⟩

/-- What can become of a stored job while its life goes on in a certain way. -/
inductive JobFate (f : JobLife → JobLife) : Option Stored → Option Stored → Prop
  | kept (current : Option Stored) (hsame : f = id) : JobFate f current current
  | gone (current : Option Stored) : JobFate f current none
  | rewritten {d next : Stored} (hetag : next.etag = d.etag + 1)
    (htells : ∀ life, d.Tells life → next.Tells (f life)) : JobFate f (some d) (some next)

namespace JobFate

variable {f : JobLife → JobLife} {d final : Stored} {current : Option Stored}

theorem of_kept {next : Option Stored} (h : next = current ∨ next = none) :
    JobFate id current next := by
  rcases h with rfl | rfl
  · exact .kept _ rfl
  · exact .gone _

theorem tells (h : JobFate f (some d) (some final)) {life : JobLife} (htells : d.Tells life) :
    final.Tells (f life) := by
  cases h with
  | kept _ hsame =>
      subst hsame
      exact htells
  | rewritten _ hrewritten => exact hrewritten life htells

theorem exists_of_some (h : JobFate f current (some final)) : ∃ d, current = some d := by
  cases h with
  | kept => exact ⟨_, rfl⟩
  | rewritten => exact ⟨_, rfl⟩

/-- A version that was seen does not come back. -/
theorem dates {m next : Memory} {id : DocId} (h : JobFate f (m.find? id) (next.find? id))
    (hdates : m.Dates id d) : next.Dates id d := by
  intro final hfinal
  generalize hcurrent : m.find? id = current at h
  rw [hfinal] at h
  cases h with
  | kept => exact hdates final hcurrent
  | rewritten hetag =>
      left
      rcases hdates _ hcurrent with hlt | rfl <;> omega

theorem of_put {m next : Memory} {id : DocId} {body : Json}
    {expiresAt : Option Instant} (hdates : m.Dates id d)
    (hrewrites : Memory.Rewrites [.put id body expiresAt (.exact d.etag)] (m.find? id)
      (next.find? id))
    (htells : ∀ life final, final.body = body → d.Tells life → Stored.Tells final (f life)) :
    JobFate f (m.find? id) (next.find? id) := by
  obtain ⟨before, after, houtcome⟩ := Memory.rewrites_singleton hrewrites
  have haccepts := Memory.outcome_demand houtcome rfl
  obtain ⟨final, hfinal, hbody, _⟩ := Memory.outcome_put houtcome
  cases hcurrent : m.find? id with
  | none =>
      rw [hcurrent] at haccepts
      cases haccepts
  | some current =>
      rw [hcurrent] at haccepts houtcome
      obtain rfl := hdates.eq_of_etag hcurrent (beq_iff_eq.mp haccepts).symm
      rw [hfinal] at houtcome ⊢
      rcases (Memory.outcome_some houtcome).2 with ⟨_, hgone⟩ | ⟨_, changed, heq, _, _, hetag⟩
      · cases hgone
      · cases heq
        exact .rewritten hetag fun life => htells life final hbody

end JobFate

end Jobyard
