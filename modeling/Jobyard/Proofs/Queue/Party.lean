import Jobyard.Proofs.Queue.Announce
import Jobyard.Proofs.Queue.Pass
import Jobyard.Proofs.Queue.Task
import Jobyard.Proofs.Simulation.Heard

/-!
Parties at queues: producers, consumers, those who cancel, and whatever else leaves the tokens
alone. Whoever cancels raises the token first and ends when everything it took is notified.
-/

namespace Jobyard

namespace Token

variable {token : TokenRef} {log : Log}

def Cancels (token : TokenRef) (log : Log) : Request → Prop
  | .raise other => other = token
  | .takeWatched other => other = token ∧ ⟨.raise token, ()⟩ ∈ log
  | .notify _ => ⟨.raise token, ()⟩ ∈ log
  | _ => False

structure Told (token : TokenRef) (log : Log) : Prop where
  taken : ∃ signals, ⟨.takeWatched token, signals⟩ ∈ log
  notified : ∀ signals, ⟨.takeWatched token, signals⟩ ∈ log →
    ∀ signal ∈ signals, ⟨.notify signal, ()⟩ ∈ log

theorem cancels_notifyAll (signals : List SignalRef) (hraised : ⟨.raise token, ()⟩ ∈ log) :
    (notifyAll signals).Conforms (Cancels token)
      (fun last _ => ∃ front, last = front ++ log ∧
        (∀ signal ∈ signals, ⟨.notify signal, ()⟩ ∈ front) ∧
        ∀ exchange ∈ front, ∃ signal, exchange = ⟨.notify signal, ()⟩) log := by
  induction signals generalizing log with
  | nil => exact ⟨[], rfl, fun _ hmem => (nomatch hmem), fun _ hmem => nomatch hmem⟩
  | cons signal rest ih =>
      refine ⟨hraised, fun _ => (ih (List.mem_cons_of_mem _ hraised)).mono ?_⟩
      intro last _ ⟨front, hlast, hsignals, hfront⟩
      have hfirst : (⟨.notify signal, ()⟩ : Exchange) ∈ front ++ [⟨.notify signal, ()⟩] :=
        List.mem_append_right _ List.mem_cons_self
      refine ⟨front ++ [⟨.notify signal, ()⟩], hlast.trans (List.append_cons ..),
        List.forall_mem_cons.mpr ⟨hfirst, fun other hmem =>
          List.mem_append_left _ (hsignals other hmem)⟩,
        List.forall_mem_append.mpr ⟨hfront, fun exchange hmem => ⟨signal, ?_⟩⟩⟩
      exact List.mem_singleton.mp hmem

theorem cancels_cancel (token : TokenRef) :
    (cancel token).Conforms (Cancels token) (fun log _ => Told token log) [] := by
  refine ⟨rfl, fun _ => ⟨⟨rfl, List.mem_cons_self⟩, fun signals => ?_⟩⟩
  refine (cancels_notifyAll signals (List.mem_cons_of_mem _ List.mem_cons_self)).mono ?_
  intro last _ ⟨front, hlast, hsignals, hfront⟩
  subst hlast
  refine ⟨⟨signals, List.mem_append_right _ List.mem_cons_self⟩, ?_⟩
  intro others hmem signal hsignal
  have hothers : others = signals := by
    rcases List.mem_append.mp hmem with hnotice | htaken
    · obtain ⟨_, heq⟩ := hfront _ hnotice
      cases heq
    · rcases List.mem_cons.mp htaken with heq | hraise
      · cases heq
        rfl
      · cases List.mem_singleton.mp hraise
  exact List.mem_append_left _ (hsignals signal (hothers ▸ hsignal))

end Token

namespace Simulation

inductive Party
  | enqueue (q : JobQueue) (queue : String) (jobId : JobId)
  | transact (c : Connection) (plan : TransactionPlan)
  | dequeue (q : JobQueue) (queues : List String) (token : TokenRef) (limit : Nat)
  | cancel (token : TokenRef)
  | other (p : Program Unit)

inductive Ending
  | enqueued (result : Except StoreError Unit)
  | transacted (settlement : TransactionPlan.Settlement)
  | dequeued (outcome : Outcome)
  | finished

namespace Party

def program : Party → Program Ending
  | enqueue q queue jobId => (q.enqueue queue jobId).run >>= fun result => pure (.enqueued result)
  | transact c plan => plan.program c.transaction [] >>= fun settlement =>
    pure (.transacted settlement)
  | dequeue q queues token limit => q.dequeue queues token limit >>= fun outcome =>
    pure (.dequeued outcome)
  | cancel token => Token.cancel token >>= fun _ => pure .finished
  | other p => p >>= fun _ => pure .finished

def Admitted : Party → Prop
  | other p => p.Conforms (fun _ => Request.LeavesTokens) (fun _ _ => True) []
  | _ => True

/-- What a party says at its end that it has queued, in which store and under which signal. -/
def Queues (store : StoreRef) (signal : SignalRef) (entry : QueueEntry) : Party → Ending → Prop
  | enqueue q queue jobId, .enqueued (.ok _) =>
    q.store = store ∧ q.signal = signal ∧ QueueEntry.pending queue jobId = entry
  | transact c _, .transacted ⟨done, some (.ok _)⟩ =>
    c.store = store ∧ ∃ queue jobId, .addToQueue queue jobId ∈ done ∧
      (c.routing.serving queue).signal = signal ∧ QueueEntry.pending queue jobId = entry
  | _, _ => False

def allowed : Party → Log → Request → Prop
  | dequeue q queues token _ => q.Consumes queues token
  | cancel token => Token.Cancels token
  | _ => fun _ => Request.LeavesTokens

def ends (party : Party) (log : Log) (ending : Ending) : Prop :=
  (log.drawn.Nodup → ∀ store signal entry, party.Queues store signal entry ending →
    ∃ id, log.Announces store signal id entry) ∧
  ∀ token, party = .cancel token → Token.Told token log

theorem conforms {party : Party} (hadmitted : party.Admitted) :
    party.program.Conforms party.allowed party.ends [] := by
  cases party with
  | enqueue q queue jobId =>
      refine (q.announces_enqueue queue jobId).bind fun log result h =>
        ⟨?_, fun _ heq => nomatch heq⟩
      intro _ store signal entry hqueues
      cases result with
      | error e => cases hqueues
      | ok value =>
          obtain ⟨rfl, rfl, rfl⟩ := hqueues
          exact h value rfl
  | transact c plan =>
      refine (plan.announces_program c).bind fun log settlement h => ⟨?_, fun _ heq => nomatch heq⟩
      intro hnodup store signal entry hqueues
      obtain ⟨done, _ | e | value⟩ := settlement
      · cases hqueues
      · cases hqueues
      · obtain ⟨rfl, queue, jobId, hmem, rfl, rfl⟩ := hqueues
        exact h hnodup value rfl queue jobId hmem
  | dequeue q queues token limit =>
      exact (q.consumes_dequeue queues token limit).bind fun _ _ _ =>
        ⟨fun _ _ _ _ hqueues => (nomatch hqueues), fun _ heq => nomatch heq⟩
  | cancel token =>
      refine (Token.cancels_cancel token).bind fun log _ h =>
        ⟨fun _ _ _ _ hqueues => (nomatch hqueues), fun other heq => ?_⟩
      cases heq
      exact h
  | other p =>
      exact hadmitted.bind fun _ _ _ =>
        ⟨fun _ _ _ _ hqueues => (nomatch hqueues), fun _ heq => nomatch heq⟩

variable {party : Party} {token : TokenRef} {log : Log}

theorem eq_cancel_of_raise (h : log.Heeds party.allowed) (hraised : ⟨.raise token, ()⟩ ∈ log) :
    party = .cancel token := by
  obtain ⟨_, earlier, _, hallowed⟩ := h.exists_of_mem hraised
  cases party with
  | cancel other =>
      obtain rfl : token = other := hallowed
      rfl
  | _ => cases hallowed

theorem eq_cancel_of_take {signals : List SignalRef} (h : log.Heeds party.allowed)
    (htaken : ⟨.takeWatched token, signals⟩ ∈ log) :
    party = .cancel token ∧ ⟨.raise token, ()⟩ ∈ log := by
  obtain ⟨front, earlier, rfl, hallowed⟩ := h.exists_of_mem htaken
  cases party with
  | cancel other =>
      obtain ⟨rfl, hraised⟩ := hallowed
      exact ⟨rfl, List.mem_append_right _ (List.mem_cons_of_mem _ hraised)⟩
  | _ => cases hallowed

theorem raise_of_notify {signal : SignalRef} (h : log.Heeds (cancel token).allowed)
    (hnotified : ⟨.notify signal, ()⟩ ∈ log) : ⟨.raise token, ()⟩ ∈ log := by
  obtain ⟨front, earlier, rfl, hraised⟩ := h.exists_of_mem hnotified
  exact List.mem_append_right _ (List.mem_cons_of_mem _ hraised)

end Party

end Simulation

end Jobyard
