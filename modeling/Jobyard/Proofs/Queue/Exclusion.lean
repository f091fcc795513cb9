import Jobyard.Proofs.Queue.Stamp
import Jobyard.Proofs.Time.Instant

/-!
Leases exclude one another. As long as an entry is not put back, a consumer that takes it after
another one reads a clock that is past the timeout of the lease before.
-/

namespace Jobyard.Simulation

open Change History

def Passed (timeout : Span) (stamp now : Instant) : Prop :=
  ∃ visibleAgain, stamp.plus? timeout = some visibleAgain ∧ visibleAgain.before now

theorem passed_of_isClaimable {entry : QueueEntry} {stamp now : Instant} {timeout : Span}
    (hstamp : entry.fetchedAt = some stamp) (h : entry.isClaimable now timeout) :
    Passed timeout stamp now := by
  unfold QueueEntry.isClaimable at h
  rw [hstamp] at h
  simp only at h
  split at h
  · cases h
  · rename_i visibleAgain hvisible
    exact ⟨visibleAgain, hvisible, h⟩

theorem Passed.trans {timeout : Span} {first second third : Instant} (htimeout : 0 ≤ timeout.nanos)
    (hfirst : Passed timeout first second) (hsecond : Passed timeout second third) :
    Passed timeout first third := by
  obtain ⟨u, hu, husecond⟩ := hfirst
  obtain ⟨v, hv, hvthird⟩ := hsecond
  have hsecondv : second.place ≤ v.place := Instant.place_le_of_plus? htimeout hv
  exact ⟨u, hu, Instant.before_trans (Instant.before_of_before_of_le husecond hsecondv) hvthird⟩

theorem Passed.of_reached {timeout : Span} {stamp current now : Instant}
    (htimeout : 0 ≤ timeout.nanos) (hpassed : Passed timeout current now)
    (hreached : current = stamp ∨ Passed timeout stamp current) : Passed timeout stamp now := by
  rcases hreached with rfl | hsince
  · exact hpassed
  · exact hsince.trans htimeout hpassed

def Task.Waits (timeout : Span) : Task → Prop
  | .dequeue q .. => q.invisibility = timeout
  | _ => True

theorem Thread.change?_claimed {thread : Thread Task Outcome} {lease : Lease} {timeout : Span}
    (h : thread.change? = some (.claimed lease timeout)) :
    ∃ q queues token limit, thread.task = .dequeue q queues token limit ∧
      thread.rest = .done (.ok (some lease)) ∧ q.invisibility = timeout := by
  obtain ⟨task, log, rest⟩ := thread
  cases task with
  | dequeue q queues token limit =>
      simp only [Thread.change?] at h
      split at h
      · cases h
        exact ⟨q, queues, token, limit, rfl, rfl, rfl⟩
      · cases h
  | reap r rounds => cases h
  | other p => cases h
  | _ =>
      simp only [Thread.change?] at h
      split at h <;> cases h

variable {store : StoreRef} {clock : Instant} {timeout : Span} {y last : Floor}
  {history before : History} {event : Event Task Outcome} {lease : Lease}

theorem Event.thread_of_lease (hlease : event.lease? = some lease) :
    ∃ n thread q queues token limit, event = .proceeded n thread ∧
      thread.task = .dequeue q queues token limit ∧ thread.rest = .done (.ok (some lease)) ∧
      event.change? = some (.claimed lease q.invisibility) := by
  obtain ⟨timeout, hchange⟩ := Event.lease?_eq_some.mp hlease
  cases event with
  | began n task => cases hchange
  | clocked time => cases hchange
  | proceeded n thread =>
      obtain ⟨q, queues, token, limit, htask, hrest, rfl⟩ := Thread.change?_claimed hchange
      exact ⟨n, thread, q, queues, token, limit, rfl, htask, hrest, hchange⟩

theorem Recorded.clock_of_lease (hrecorded : Recorded store history y)
    (hstep : Yard.Step Task.program (Task.At store) y event last)
    (hlease : event.lease? = some lease) :
    ∃ n thread now, event = .proceeded n thread ∧ lease.claimedAt = some now ∧
      ⟨.now, now⟩ ∈ thread.log := by
  obtain ⟨n, thread, q, queues, token, limit, rfl, htask, hrest, _⟩ :=
    Event.thread_of_lease hlease
  have hthread : last.threads n = some thread := by
    cases hstep with
    | proceeded => exact Yard.threads_seat_self _ _ _ _
  obtain ⟨_, hconforms⟩ := (hrecorded.step hstep).sound.orderly n thread hthread
  rw [htask, hrest] at hconforms
  obtain ⟨_, earlier, _, _, _, now, hlog, _, hsees, _, rfl⟩ := hconforms
  refine ⟨n, thread, now, rfl, rfl, ?_⟩
  rw [hlog]
  exact List.mem_cons_of_mem _ hsees.clock

def Timed (timeout : Span) (history : History) : Prop :=
  ∀ event ∈ history, ∀ lease other, event.change? = some (.claimed lease other) → other = timeout

theorem Timed.tail (h : Timed timeout (event :: history)) : Timed timeout history :=
  fun other hmem => h other (List.mem_cons_of_mem event hmem)

theorem Recorded.passed_of_lease (hrecorded : Recorded store history y)
    (hstep : Yard.Step Task.program (Task.At store) y event last)
    (htimed : Timed timeout (event :: history)) (hlease : event.lease? = some lease)
    {stamp now : Instant} (hstamp : stampAfter lease.entryId history = some stamp)
    (hnow : lease.claimedAt = some now) : Passed timeout stamp now := by
  obtain ⟨other, hchange⟩ := Event.lease?_eq_some.mp hlease
  have hother : other = timeout := htimed event List.mem_cons_self lease other hchange
  have heffect := Floor.effect_of_step hrecorded.sound hstep
  rw [hchange, hother] at heffect
  obtain ⟨hentry, ⟨d, entry, read, hholds, hclaimable, hclaimed, _⟩, _⟩ := heffect
  rw [hnow] at hclaimed
  cases hclaimed
  exact passed_of_isClaimable ((hrecorded.fetchedAt_of_holds hentry hholds).trans hstamp) hclaimable

/-- While an entry is not put back, it carries the stamp of the lease or one past its timeout. -/
theorem stamp_of_kept {first : Event Task Outcome} {between : History} {stamp : Instant}
    (htimeout : 0 ≤ timeout.nanos)
    (hrun : Shift store (Yard.start clock) (between ++ first :: before) y)
    (htimed : Timed timeout (between ++ first :: before))
    (hlease : first.lease? = some lease) (hstamp : lease.claimedAt = some stamp)
    (hkept : ∀ event ∈ between, ¬ event.Requeues lease.entryId) :
    ∃ current, stampAfter lease.entryId (between ++ first :: before) = some current ∧
      (current = stamp ∨ Passed timeout stamp current) := by
  -- The latest claim decides, and each claim is past the timeout of the one before.
  induction between generalizing y with
  | nil =>
      cases hrun with
      | step hearlier hstep =>
          obtain ⟨_, now, hnow, hafter⟩ :=
            (recorded_of_run hearlier).stamp_of_lease hstep hlease
          rw [hstamp] at hnow
          cases hnow
          exact ⟨stamp, hafter, .inl rfl⟩
  | cons event rest ih =>
      have hrest : ∀ event ∈ rest, ¬ event.Requeues lease.entryId :=
        fun other hmem => hkept other (List.mem_cons_of_mem event hmem)
      cases hrun with
      | step hearlier hstep =>
          obtain ⟨current, hcurrent, hreached⟩ := ih hearlier htimed.tail hrest
          rw [List.cons_append, stampAfter_cons]
          cases hchanged : stamp? lease.entryId event.change? with
          | none => exact ⟨current, hcurrent, hreached⟩
          | some changed =>
              rcases Event.stamp?_eq_some hchanged with
                ⟨other, hother, hsame, hclaimed⟩ | ⟨hrequeues, _⟩
              · have hrecorded := recorded_of_run hearlier
                obtain ⟨_, now, hnow, _⟩ := hrecorded.stamp_of_lease hstep hother
                have hpassed :=
                  hrecorded.passed_of_lease hstep htimed hother (hsame ▸ hcurrent) hnow
                rw [← hclaimed, hnow]
                exact ⟨now, rfl, .inr (hpassed.of_reached htimeout hreached)⟩
              · exact absurd hrequeues (hkept event List.mem_cons_self)

abbrev TimedShift (store : StoreRef) (timeout : Span) :=
  Yard.Run Task.program fun task => task.At store ∧ task.Waits timeout

theorem timed_of_run (hrun : TimedShift store timeout (Yard.start clock) history y) :
    Timed timeout history := by
  intro event hmem lease other hchange
  obtain ⟨n, thread, q, queues, token, limit, rfl, htask, _, hclaimed⟩ :=
    Event.thread_of_lease (Event.lease?_eq_some.mpr ⟨other, hchange⟩)
  obtain ⟨_, hwaits⟩ := hrun.admitted.2 n thread hmem
  rw [htask] at hwaits
  rw [hchange] at hclaimed
  cases hclaimed
  exact hwaits

/-- No two leases on one entry, unless it was put back in between, or the later consumer has read
a time past the timeout of the earlier lease. -/
theorem lease_exclusive {first second : Event Task Outcome} {between : History}
    {earlier later : Lease} (htimeout : 0 ≤ timeout.nanos)
    (hrun : TimedShift store timeout (Yard.start clock)
      (second :: (between ++ first :: before)) last)
    (hfirst : first.lease? = some earlier) (hsecond : second.lease? = some later)
    (hsame : later.entryId = earlier.entryId) :
    (∃ event ∈ between, event.Requeues earlier.entryId) ∨
      ∃ stamp now n thread, earlier.claimedAt = some stamp ∧ later.claimedAt = some now ∧
        second = .proceeded n thread ∧ ⟨.now, now⟩ ∈ thread.log ∧ Passed timeout stamp now := by
  by_cases hrequeued : ∃ event ∈ between, event.Requeues earlier.entryId
  · exact .inl hrequeued
  have hkept : ∀ event ∈ between, ¬ event.Requeues earlier.entryId :=
    fun event hmem hrequeues => hrequeued ⟨event, hmem, hrequeues⟩
  have htimed := timed_of_run hrun
  have hshift : Shift store (Yard.start clock) (second :: (between ++ first :: before)) last :=
    hrun.mono fun _ hadmits => hadmits.1
  cases hshift with
  | step hearlier hstep =>
      have hrecorded := recorded_of_run hearlier
      obtain ⟨_, hbefore, _⟩ := hearlier.split
      cases hbefore with
      | step hbefore hclaim =>
          obtain ⟨_, stamp, hstamp, _⟩ := (recorded_of_run hbefore).stamp_of_lease hclaim hfirst
          obtain ⟨current, hcurrent, hreached⟩ :=
            stamp_of_kept htimeout hearlier htimed.tail hfirst hstamp hkept
          obtain ⟨n, thread, now, hturn, hnow, hread⟩ := hrecorded.clock_of_lease hstep hsecond
          have hpassed := hrecorded.passed_of_lease hstep htimed hsecond (hsame ▸ hcurrent) hnow
          exact .inr ⟨stamp, now, n, thread, hstamp, hnow, hturn, hread,
            hpassed.of_reached htimeout hreached⟩

/-- After six seconds a second consumer takes the entry of the first one. -/
theorem lease_exclusive_reclaimed :
    let later : Instant := ⟨0, 6, 0, by decide⟩
    let y := (played (Sample.produce 0 ++ Sample.consume 1 8 ++
      .clock later :: Sample.consume 2 9)).2
    ∃ event last, y.proceed? 2 = some (event, last) ∧
      event.lease? = some (Sample.leaseAt later) ∧
      Passed Sample.queue.invisibility .origin later := by
  intro later y
  let day := Sample.produce 0 ++ Sample.consume 1 8 ++ .clock later :: Sample.consume 2 9
  have hadmits : ∀ n task, .begin n task ∈ day →
      task.At Sample.queue.store ∧ task.Waits Sample.queue.invisibility := by
    intro n task hmem
    simp only [day, Sample.produce, Sample.consume, List.mem_append, List.mem_cons,
      Move.begin_mem_whole, reduceCtorEq, false_or] at hmem
    rcases hmem with (⟨_, rfl⟩ | ⟨_, rfl⟩) | ⟨_, rfl⟩
    · exact ⟨rfl, trivial⟩
    · exact ⟨rfl, rfl⟩
    · exact ⟨rfl, rfl⟩
  have hlength : 11 < (played day).1.length := by decide +kernel
  obtain ⟨first, before, hparts, hplace⟩ := exists_parts hlength
  have hclaim : (played day).1[11]?.bind Event.lease? = some (Sample.leaseAt .origin) := by
    decide +kernel
  have hquiet : ∀ event ∈ (played day).1.take 11, event.change?.isNone := by decide +kernel
  have hsome : (y.proceed? 2).isSome := by decide +kernel
  have hlater : (y.proceed? 2).bind (·.1.lease?) = some (Sample.leaseAt later) := by
    decide +kernel
  obtain ⟨⟨event, last⟩, hnext⟩ := Option.isSome_iff_exists.mp hsome
  rw [hplace] at hclaim
  rw [hnext] at hlater
  have hrun : TimedShift Sample.queue.store Sample.queue.invisibility (Yard.start .origin)
      ((played day).1.take 11 ++ first :: before) y := by
    rw [← hparts]
    exact run_played hadmits
  refine ⟨event, last, hnext, hlater, ?_⟩
  have hreclaimed := lease_exclusive (by decide) (.step hrun (Yard.step_of_proceed hnext)) hclaim
    hlater rfl
  rcases hreclaimed with
    ⟨other, hmem, _, hrequeued, _⟩ | ⟨_, _, _, _, hstamp, hnow, _, _, hpassed⟩
  · have hnone := hquiet other hmem
    rw [hrequeued] at hnone
    cases hnone
  · cases hstamp
    cases hnow
    exact hpassed

end Jobyard.Simulation
