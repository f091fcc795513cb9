import Jobyard.Proofs.Queue.Wakeup

/-!
Cancelled consumers. Once all cancellations of a token have ended, no consumer with that token
waits on the present generation of its signal; and whoever begins to consume with a cancelled
token is refused.
-/

namespace Jobyard

namespace Simulation

/-- What a consumer asks for until it has checked its token. -/
def Refrains : Request → Prop
  | .watch _ _ | .isCancelled _ | .notify _ => True
  | _ => False

/-- A program that ends as cancelled within so many turns, whatever else happens meanwhile to a
world where the token is cancelled. -/
def Refuses (token : TokenRef) : Program Ending → Nat → Prop
  | .done ending, _ => ending = .dequeued (.error .cancelled)
  | .call _ _, 0 => False
  | .call request next, turns + 1 => Refrains request ∧ ∀ (w later : World) reply,
      (w.token token).cancelled → w.Reacts request reply later → Refuses token (next reply) turns

theorem refuses_dequeue (q : JobQueue) {queues : List String} (token : TokenRef) (limit : Nat)
    (hqueues : queues ≠ []) :
    Refuses token (Party.dequeue q queues token (limit + 1)).program 4 := by
  have hnone : queues.isEmpty = false := List.isEmpty_eq_false_iff.mpr hqueues
  change Refuses token (q.dequeue queues token (limit + 1) >>= _) 4
  unfold JobQueue.dequeue
  rw [hnone]
  have hcheck : ∀ {w later : World} {reply : Bool}, (w.token token).cancelled →
      w.Reacts (.isCancelled token) reply later → reply = true :=
    fun hcancelled hreacts => hreacts.1.trans hcancelled
  refine ⟨trivial, fun _ _ _ _ _ => ⟨trivial, fun _ _ registered hcancelled hreacts => ?_⟩⟩
  cases hcheck hcancelled hreacts
  refine ⟨trivial, fun _ _ _ _ _ => ⟨trivial, fun _ _ checked hcancelled hreacts => ?_⟩⟩
  cases hcheck hcancelled hreacts
  rfl

namespace PartyYard

variable {y last : PartyYard} {clock : Instant} {token : TokenRef} {n k : Nat}
  {history old recent : List (Event Party Ending)} {event : Event Party Ending}

/-- A consumer on its way to be refused, after at most four turns. -/
def Refused (token : TokenRef) (n : Nat) (y : PartyYard) : Prop :=
  (y.world.token token).cancelled ∧ ∃ thread turns, y.threads n = some thread ∧
    Refuses token thread.rest turns ∧ thread.log.length + turns = 4 ∧
    ∀ exchange ∈ thread.log, Refrains exchange.request

theorem Refused.step (hcalm : y.world.Calm) (h : Refused token n y)
    (hstep : Yard.Step Party.program Party.Admitted y event last) : Refused token n last := by
  obtain ⟨hcancelled, thread, turns, hthread, hrefuses, hturns, hlog⟩ := h
  refine ⟨(hstep.cancelled_iff hcalm).mpr (.inl hcancelled), ?_⟩
  cases hstep with
  | clocked time => exact ⟨thread, turns, hthread, hrefuses, hturns, hlog⟩
  | began k task hfree hadmits =>
      have hne : n ≠ k := by
        rintro rfl
        cases hfree.symm.trans hthread
      exact ⟨thread, turns, (Yard.threads_seat_of_ne _ _ _ hne).trans hthread, hrefuses, hturns,
        hlog⟩
  | proceeded k task log request next reply w hturn hreacts =>
      by_cases hne : n = k
      · subst hne
        cases hturn.symm.trans hthread
        cases turns with
        | zero => cases hrefuses
        | succ more =>
            obtain ⟨hrefrains, hnext⟩ := hrefuses
            refine ⟨_, more, Yard.threads_seat_self _ _ _ _, hnext _ _ _ hcancelled hreacts, ?_,
              List.forall_mem_cons.mpr ⟨hrefrains, hlog⟩⟩
            rw [List.length_cons, ← hturns]
            exact Nat.add_right_comm ..
      · exact ⟨thread, turns, (Yard.threads_seat_of_ne _ _ _ hne).trans hthread, hrefuses, hturns,
          hlog⟩

theorem Refused.run (hcalm : y.world.Calm) (h : Refused token n y)
    (hrun : Yard.Run Party.program Party.Admitted y history last) : Refused token n last := by
  induction hrun with
  | refl => exact h
  | step hrun hstep ih => exact ih.step (hrun.calm hcalm) hstep

theorem Refused.exists_thread (h : Refused token n y) :
    ∃ thread, y.threads n = some thread ∧ thread.log.length ≤ 4 ∧
      (∀ exchange ∈ thread.log, Refrains exchange.request) ∧
      (thread.rest = .done (.dequeued (.error .cancelled)) ∨ thread.log.length < 4 ∧
        ∃ event after, Yard.Step Party.program Party.Admitted y event after ∧
          (event.heard? n).isSome) := by
  obtain ⟨_, ⟨task, log, rest⟩, turns, hthread, hrefuses, hturns, hlog⟩ := h
  refine ⟨_, hthread, by omega, hlog, ?_⟩
  cases rest with
  | done ending => exact .inl (congrArg _ hrefuses)
  | call request next =>
      cases turns with
      | zero => cases hrefuses
      | succ more =>
          have hfresh : y.world.isFresh request := by
            cases request with
            | freshText => cases hrefuses.1
            | _ => rfl
          refine .inr ⟨by omega, _, _,
            .proceeded n task log request next _ _ hthread (World.reacts_answer hfresh), ?_⟩
          rw [heard?_proceeded_self]
          rfl

theorem raise_of_take {signals : List SignalRef}
    (hrun : Yard.Run Party.program Party.Admitted (Yard.start clock) history y)
    (htaken : ⟨.takeWatched token, signals⟩ ∈ heard k history) :
    ⟨.raise token, ()⟩ ∈ heard k history := by
  obtain ⟨_, _, hheeds, _⟩ := hrun.conduct_of_heard (fun _ => Party.conforms) htaken
  exact (Party.eq_cancel_of_take hheeds htaken).2

theorem told_lately
    (hrun : Yard.Run Party.program Party.Admitted (Yard.start clock) (recent ++ old) y)
    (hended : ∀ thread, y.threads k = some thread → thread.task = .cancel token →
      ∃ ending, thread.rest = .done ending)
    (hunraised : ⟨.raise token, ()⟩ ∉ heard k old)
    (hraised : ⟨.raise token, ()⟩ ∈ heard k (recent ++ old)) :
    (∃ signals, ⟨.takeWatched token, signals⟩ ∈ heard k recent) ∧
      ∀ signals, ⟨.takeWatched token, signals⟩ ∈ heard k recent →
        ∀ signal ∈ signals, ⟨.notify signal, ()⟩ ∈ heard k recent := by
  obtain ⟨thread, hthread, hheeds, hends⟩ :=
    hrun.conduct_of_heard (fun _ => Party.conforms) hraised
  have hparty : thread.task = .cancel token := Party.eq_cancel_of_raise hheeds hraised
  obtain ⟨ending, hending⟩ := hended thread hthread hparty
  rw [hending] at hends
  have htold : Token.Told token (heard k (recent ++ old)) := hends.2 token hparty
  rw [hparty] at hheeds
  rw [heard_append] at hheeds htold
  -- Before the token was raised, a cancellation takes nothing and notifies nobody.
  have hearlier := hheeds.of_append
  constructor
  · obtain ⟨signals, htaken⟩ := htold.taken
    refine ⟨signals, (List.mem_append.mp htaken).resolve_right fun hmem => ?_⟩
    exact hunraised (Party.eq_cancel_of_take hearlier hmem).2
  · intro signals htaken signal hsignal
    have hnotified := htold.notified signals (List.mem_append_left _ htaken) signal hsignal
    refine (List.mem_append.mp hnotified).resolve_right fun hmem => ?_
    exact hunraised (Party.raise_of_notify hearlier hmem)

theorem unraised_of_checked
    (hrun : Yard.Run Party.program Party.Admitted (Yard.start clock) (recent ++ event :: old) y)
    (hchecked : event.heard? n = some ⟨.isCancelled token, false⟩) :
    ∀ k, ⟨.raise token, ()⟩ ∉ heard k old := by
  intro k hraised
  obtain ⟨middle, hfirst, _⟩ := hrun.split
  cases hfirst with
  | step hold hcheck =>
      have hcancelled := (hold.cancelled_iff (World.calm_start clock)).mpr (.inr ⟨k, hraised⟩)
      exact Bool.false_ne_true ((hcheck.reacts_of_heard hchecked).1.trans hcancelled)

theorem exists_take {signal : SignalRef} {signals : List SignalRef}
    (hrun : Yard.Run Party.program Party.Admitted (Yard.start clock) (recent ++ event :: old) y)
    (hwatched : event.heard? n = some ⟨.watch token signal, ()⟩)
    (htaken : ⟨.takeWatched token, signals⟩ ∈ heard k recent) :
    ∃ k signals, ⟨.takeWatched token, signals⟩ ∈ heard k recent ∧ signal ∈ signals := by
  obtain ⟨middle, hfirst, hsince⟩ := hrun.split
  cases hfirst with
  | step hold hwatch =>
      have hcalm := hwatch.calm (hold.calm (World.calm_start clock))
      rcases hsince.watched hcalm (World.watched_of_watch (hwatch.reacts_of_heard hwatched)) with
        ⟨_, huntaken⟩ | htakes
      · exact absurd htaken (huntaken k signals)
      · exact htakes

theorem exists_notified {signal : SignalRef} {newer : List (Event Party Ending)}
    (hrun : Yard.Run Party.program Party.Admitted (Yard.start clock)
      (recent ++ (newer ++ event :: old)) y)
    (hcancelled : (y.world.token token).cancelled)
    (hended : ∀ k thread, y.threads k = some thread → thread.task = .cancel token →
      ∃ ending, thread.rest = .done ending)
    (hunraised : ∀ k, ⟨.raise token, ()⟩ ∉ heard k (newer ++ event :: old))
    (hwatched : event.heard? n = some ⟨.watch token signal, ()⟩) :
    ∃ event ∈ recent, event.notifies signal := by
  have htold := fun k => told_lately hrun (hended k) (hunraised k)
  obtain ⟨k, hraised⟩ : ∃ k, ⟨.raise token, ()⟩ ∈ heard k (recent ++ (newer ++ event :: old)) :=
    ((hrun.cancelled_iff (World.calm_start clock)).mp hcancelled).resolve_left Bool.false_ne_true
  obtain ⟨⟨signals, htaken⟩, _⟩ := htold k hraised
  have hsince : ⟨.takeWatched token, signals⟩ ∈ heard k (recent ++ newer) := by
    rw [heard_append]
    exact List.mem_append_left _ htaken
  -- Somebody took the list after the signal was put on it; the first who did took the signal.
  obtain ⟨other, signals, htakes, hsignal⟩ :=
    exists_take (List.append_assoc recent newer _ ▸ hrun) hwatched hsince
  have hlately : ⟨.takeWatched token, signals⟩ ∈ heard other recent := by
    rw [heard_append] at htakes
    refine (List.mem_append.mp htakes).resolve_right fun hmem => ?_
    obtain ⟨middle, hold, _⟩ := hrun.split
    have hearlier : ⟨.takeWatched token, signals⟩ ∈ heard other (newer ++ event :: old) := by
      rw [heard_append]
      exact List.mem_append_left _ hmem
    exact hunraised other (raise_of_take hold hearlier)
  have htaken : ⟨.takeWatched token, signals⟩ ∈
      heard other (recent ++ (newer ++ event :: old)) := by
    rw [heard_append]
    exact List.mem_append_left _ hlately
  obtain ⟨notice, hmem, hnotice⟩ :=
    mem_heard.mp ((htold other (raise_of_take hrun htaken)).2 signals hlately signal hsignal)
  refine ⟨notice, hmem, ?_⟩
  rw [Event.notifies_of_heard hnotice, Exchange.notifies_iff]

variable {q : JobQueue} {queues : List String} {seen : UInt64}

theorem changed_of_waiting
    (hrun : Yard.Run Party.program Party.Admitted (Yard.start clock) history y)
    (hcancelled : (y.world.token token).cancelled)
    (hended : ∀ k thread, y.threads k = some thread → thread.task = .cancel token →
      ∃ ending, thread.rest = .done ending)
    (hwaits : Waits y n q queues token seen)
    (hfew : notifications q.signal (iteration n history) < UInt64.size) :
    y.world.generation q.signal ≠ seen := by
  intro hsame
  obtain ⟨later, asked, between, read, before, found, rfl, hattempt⟩ := exists_attempt hrun hwaits
  have hsilent := hattempt.silent hrun hsame hfew
  obtain ⟨claims, hlater, _⟩ := hattempt.later
  obtain ⟨late, checked, rest, rfl, _, hchecked, _⟩ :=
    split_of_heard (hlater.trans (List.nil_append _).symm)
  obtain ⟨_, _, hbefore⟩ := List.append_of_mem hattempt.watched
  obtain ⟨since, watching, first, rfl, _, hwatching, _⟩ := split_of_heard hbefore
  -- When the token was last checked nobody had raised it, and the signal was on its list already.
  have hcut :
      (late ++ checked :: rest) ++ asked :: between ++ read :: (since ++ watching :: first) =
        late ++ checked :: ((rest ++ asked :: between ++ read :: since) ++ watching :: first) := by
    simp only [List.append_assoc, List.cons_append]
  rw [hcut] at hrun
  have hunraised := unraised_of_checked hrun hchecked
  rw [List.append_cons] at hrun
  obtain ⟨event, hmem, hnotifies⟩ := exists_notified hrun hcancelled hended hunraised hwatching
  refine hsilent event (List.mem_append_left _ (List.mem_append_left _ ?_)) hnotifies
  rw [List.append_cons]
  exact List.mem_append_left _ hmem

/-- Cancellation reaches every consumer. When all cancellations of a cancelled token have ended,
no consumer with that token waits on the present generation of its signal; and whoever begins to
consume with a cancelled token ends as cancelled within four turns, at whatever moments it gets
them, without a call to a store. -/
theorem reached_of_cancelled
    (hrun : Yard.Run Party.program Party.Admitted (Yard.start clock) history y)
    (hcancelled : (y.world.token token).cancelled) :
    ((∀ k thread, y.threads k = some thread → thread.task = .cancel token →
        ∃ ending, thread.rest = .done ending) →
      ∀ n q queues seen, Waits y n q queues token seen →
        notifications q.signal (iteration n history) < UInt64.size →
        y.world.generation q.signal ≠ seen) ∧
    ∀ n q queues limit more last, queues ≠ [] →
      Yard.Run Party.program Party.Admitted y
        (more ++ [.began n (.dequeue q queues token (limit + 1))]) last →
      ∃ thread, last.threads n = some thread ∧ thread.log.length ≤ 4 ∧
        (∀ exchange ∈ thread.log, ∀ store call, exchange.request ≠ .store store call) ∧
        (thread.rest = .done (.dequeued (.error .cancelled)) ∨ thread.log.length < 4 ∧
          ∃ event after, Yard.Step Party.program Party.Admitted last event after ∧
            (event.heard? n).isSome) := by
  have hcalm := hrun.calm (World.calm_start clock)
  refine ⟨fun hended n q queues seen => changed_of_waiting hrun hcancelled hended, ?_⟩
  intro n q queues limit more last hqueues hlater
  obtain ⟨middle, hbegun, hmore⟩ := hlater.split
  have hrefused : Refused token n middle := by
    cases hbegun with
    | step hnone hbegan =>
        cases hnone
        cases hbegan
        exact ⟨hcancelled, _, 4, Yard.threads_seat_self _ _ _ _,
          refuses_dequeue q token limit hqueues, rfl, fun _ hmem => nomatch hmem⟩
  obtain ⟨thread, hthread, hlength, hrefrains, hends⟩ :=
    (hrefused.run (hbegun.calm hcalm) hmore).exists_thread
  refine ⟨thread, hthread, hlength, fun exchange hmem store call hstore => ?_, hends⟩
  have hrefrain := hrefrains exchange hmem
  rw [hstore] at hrefrain
  exact hrefrain

namespace Sample

/-- A consumer finds an empty queue and waits; then its token is cancelled. -/
def interrupted : List (Move Party) :=
  Move.whole 0 (.dequeue queue ["q"] ⟨0⟩ 2) 8 ++ Move.whole 1 (.cancel ⟨0⟩) 3

def isDone : Thread Party Ending → Bool
  | ⟨_, _, .done _⟩ => true
  | _ => false

/-- Whether a turn did not begin a cancellation that is still running. -/
def settled (y : PartyYard) : Event Party Ending → Bool
  | .began k (.cancel _) => (y.threads k).any isDone
  | _ => true

end Sample

/-- The consumer that waits is woken, and the one that comes later is refused. -/
theorem reached_when_interrupted :
    let state := Yard.play Party.program Sample.interrupted ([], Yard.start .origin)
    let late : Party := .dequeue Sample.queue ["q"] ⟨0⟩ 1
    let arrived := state.2.seat 2 ⟨late, [], late.program⟩ state.2.world
    let last := (Yard.play Party.program (List.replicate 4 (.turn 2)) ([], arrived)).2
    Waits state.2 0 Sample.queue ["q"] ⟨0⟩ 0 ∧ state.2.world.generation ⟨0⟩ ≠ 0 ∧
      ∃ thread, last.threads 2 = some thread ∧
        thread.rest = .done (.dequeued (.error .cancelled)) := by
  intro state late arrived last
  have hadmitted : ∀ n task, .begin n task ∈ Sample.interrupted → task.Admitted := by
    intro n task hmem
    simp only [Sample.interrupted, List.mem_append, Move.begin_mem_whole] at hmem
    rcases hmem with ⟨_, rfl⟩ | ⟨_, rfl⟩ <;> trivial
  have hrun : Yard.Run Party.program Party.Admitted (Yard.start .origin) state.1 state.2 :=
    Yard.run_play hadmitted .refl
  have hsettled : state.1.all (Sample.settled state.2) := by decide +kernel
  have hended : ∀ k thread, state.2.threads k = some thread → thread.task = .cancel ⟨0⟩ →
      ∃ ending, thread.rest = .done ending := by
    intro k thread hthread htask
    have hbegan := hrun.began_of_thread hthread
    rw [htask] at hbegan
    have hdone := List.all_eq_true.mp hsettled _ hbegan
    change (state.2.threads k).any Sample.isDone at hdone
    rw [hthread, Option.any_some] at hdone
    obtain ⟨_, _, _ | _⟩ := thread
    · exact ⟨_, rfl⟩
    · cases hdone
  have hcancelled : (state.2.world.token ⟨0⟩).cancelled := by decide +kernel
  have hwaits : Waits state.2 0 Sample.queue ["q"] ⟨0⟩ 0 := by decide +kernel
  obtain ⟨hwoken, hrefused⟩ := reached_of_cancelled hrun hcancelled
  refine ⟨hwaits, hwoken hended 0 Sample.queue ["q"] 0 hwaits (by decide +kernel), ?_⟩
  have hfree : state.2.threads 2 = none := Option.isNone_iff_eq_none.mp (by decide +kernel)
  have harrived : Yard.Run Party.program Party.Admitted state.2 [.began 2 late] arrived :=
    .step .refl (.began 2 late hfree trivial)
  have hmore : Yard.Run Party.program Party.Admitted arrived _ last :=
    Yard.run_play (fun _ _ hmem => by simp at hmem) .refl
  obtain ⟨thread, hthread, _, _, hdone | ⟨hfew, _⟩⟩ :=
    hrefused 2 Sample.queue ["q"] 0 _ last (by decide) (harrived.append hmore)
  · exact ⟨thread, hthread, hdone⟩
  · have hturns : (last.threads 2).all fun thread => thread.log.length = 4 := by decide +kernel
    rw [hthread, Option.all_some, decide_eq_true_iff] at hturns
    exact absurd hturns (Nat.ne_of_lt hfew)

end PartyYard

end Simulation

end Jobyard
