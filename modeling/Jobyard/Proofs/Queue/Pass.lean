import Jobyard.Proofs.Queue.Claim

/-!
The passes of a consumer. It reads the generation of the signal before it looks for entries, and
waits for a later one only after an attempt that found none.
-/

namespace Jobyard

namespace JobQueue

open Work

variable {q : JobQueue} {log : Log}

def Tries (q : JobQueue) : Request → Prop
  | .store target _ => target = q.store
  | .now => True
  | _ => False

structure Allows (q : JobQueue) (holds : Request → Prop) : Prop where
  load : ∀ id, holds (.store q.store (.load [id]))
  now : holds .now
  commit : ∀ batch, holds (.store q.store (.commit batch))

section Allows

variable {holds : Request → Prop} (hallows : q.Allows holds)
include hallows

theorem Allows.claim (id : DocId) :
    (q.claim id).run.Conforms (fun _ => holds) (fun _ _ => True) log := by
  rw [run_claim]
  refine ⟨hallows.load id, fun reply => ?_⟩
  rcases reply with e | _ | ⟨_ | d, _⟩
  · trivial
  · trivial
  · trivial
  · change (q.consider id d).Conforms _ _ _
    unfold consider
    split
    · trivial
    · refine ⟨hallows.now, fun now => ?_⟩
      simp only
      split
      · refine ⟨hallows.commit _, fun reply => ?_⟩
        cases reply <;> trivial
      · trivial

theorem Allows.claimAny (ids : List DocId) :
    (q.claimAny ids).run.Conforms (fun _ => holds) (fun _ _ => True) log := by
  induction ids generalizing log with
  | nil => trivial
  | cons id rest ih =>
      refine (hallows.claim id).bind_action (fun log lease _ => ?_) fun _ _ _ => trivial
      cases lease with
      | some lease => trivial
      | none => exact ih

end Allows

theorem conforms_query {holds : Request → Prop} {query : Query}
    (hquery : holds (.store q.store (.query query))) :
    (alone q.store (Work.query QueueEntry query)).run.Conforms (fun _ => holds)
      (fun last result => ∃ answer, last = ⟨.store q.store (.query query), answer⟩ :: log ∧
        ∀ e, answer = .error e → result = .error e) log := by
  rw [run_alone]
  unfold Work.query
  rw [start_bind, start_askStore]
  refine ⟨hquery, fun reply => ?_⟩
  cases reply with
  | error e =>
      refine ⟨.error e, rfl, fun other heq => ?_⟩
      cases heq
      rfl
  | ok found =>
      obtain ⟨result, next, hstart, _⟩ :=
        start_gather QueueEntry found (Session.empty q.store true)
      change Program.Conforms _ _ _ (start (gather QueueEntry found) _ >>= _)
      rw [hstart]
      exact ⟨.ok found, rfl, fun _ heq => nomatch heq⟩

theorem allows_tries : q.Allows q.Tries := ⟨fun _ => rfl, trivial, fun _ => rfl⟩

/-- The log of an attempt that began by asking for waiting entries. -/
def Asked (q : JobQueue) (query : Query) (log last : Log)
    (answer : Except StoreError (List Stored)) : Prop :=
  ∃ claims, last = claims ++ ⟨.store q.store (.query query), answer⟩ :: log ∧
    ∀ exchange ∈ claims, q.Tries exchange.request

theorem Asked.extend {query : Query} {middle last : Log} {answer : Except StoreError (List Stored)}
    (h : q.Asked query log middle answer)
    (hlast : ∃ front, last = front ++ middle ∧ ∀ exchange ∈ front, q.Tries exchange.request) :
    q.Asked query log last answer := by
  obtain ⟨claims, rfl, hclaims⟩ := h
  obtain ⟨front, rfl, hfront⟩ := hlast
  exact ⟨front ++ claims, (List.append_assoc ..).symm, List.forall_mem_append.mpr ⟨hfront, hclaims⟩⟩

theorem tries_claimFirst (query : Query) :
    (q.claimFirst query).run.Conforms (fun _ => q.Tries)
      (fun last result => ∃ answer, q.Asked query log last answer ∧
        ∀ e, answer = .error e → result = .error e) log := by
  have hasked : ∀ {last answer}, last = ⟨.store q.store (.query query), answer⟩ :: log →
      q.Asked query log last answer := fun hlast => ⟨[], hlast, fun _ hmem => nomatch hmem⟩
  have hquery : q.Tries (.store q.store (.query query)) := rfl
  refine (conforms_query hquery).bind_action (fun last candidates ⟨answer, hlast, hfailed⟩ => ?_)
    fun last e ⟨answer, hlast, hfailed⟩ => ?_
  · refine ((allows_tries.claimAny _).extends fun _ _ htries => htries).mono fun last result h => ?_
    exact ⟨answer, (hasked hlast).extend h.2, fun e heq => nomatch hfailed e heq⟩
  · refine ⟨answer, hasked hlast, fun other heq => ?_⟩
    cases hfailed other heq
    rfl

theorem tries_tryClaim (queues : List String) :
    (q.tryClaim queues).run.Conforms (fun _ => q.Tries)
      (fun last result => ∃ answer, q.Asked (pending queues) log last answer ∧
        ∀ e, answer = .error e → result = .error e) log := by
  refine (tries_claimFirst (pending queues)).bind_action
    (fun last lease ⟨answer, hasked, hfailed⟩ => ?_) fun _ _ h => h
  have hextended : ∀ (front : Log) (result : Except StoreError (Option Lease)),
      (∀ exchange ∈ front, q.Tries exchange.request) →
      ∃ answer, q.Asked (pending queues) log (front ++ last) answer ∧
        ∀ e, answer = .error e → result = .error e :=
    fun front result hfront =>
      ⟨answer, hasked.extend ⟨front, rfl, hfront⟩, fun e heq => nomatch hfailed e heq⟩
  cases lease with
  | some lease => exact hextended [] _ fun _ hmem => nomatch hmem
  | none =>
      refine ⟨trivial, fun now => ?_⟩
      have hnow : ∀ exchange ∈ [(⟨.now, now⟩ : Exchange)], q.Tries exchange.request := by
        intro exchange hmem
        rw [List.mem_singleton.mp hmem]
        trivial
      dsimp only [Interaction.bind, ExceptT.bindCont, Function.comp]
      cases now.minus? q.invisibility with
      | none => exact hextended [_] _ hnow
      | some cutoff =>
          refine ((tries_claimFirst (stale queues cutoff)).extends fun _ _ htries => htries).mono
            fun last result ⟨_, front, hlast, hfront⟩ => ?_
          subst hlast
          rw [List.append_cons]
          exact hextended (front ++ [_]) result (List.forall_mem_append.mpr ⟨hfront, hnow⟩)

/-- What a consumer has behind it when it is about to wait: it has read the generation, has then
asked for waiting entries and got an answer, and was not cancelled. -/
def Passed (q : JobQueue) (queues : List String) (token : TokenRef) (seen : UInt64) (log : Log) :
    Prop :=
  ∃ attempt found earlier, log = ⟨.isCancelled token, false⟩ :: attempt ∧
    q.Asked (pending queues) (⟨.generation q.signal, seen⟩ :: earlier) attempt (.ok found) ∧
    ⟨.watch token q.signal, ()⟩ ∈ earlier

def Consumes (q : JobQueue) (queues : List String) (token : TokenRef) (log : Log) : Request → Prop
  | .wait signal seen _ => signal = q.signal ∧ q.Passed queues token seen log
  | .raise _ | .takeWatched _ => False
  | _ => True

theorem consumes_of_tries {queues : List String} {token : TokenRef} {request : Request}
    (h : q.Tries request) : q.Consumes queues token log request := by
  cases request <;> trivial

theorem consumes_passes {queues : List String} {token : TokenRef} {limit : Nat}
    (hwatched : ⟨.watch token q.signal, ()⟩ ∈ log) :
    (q.passes queues token limit).Conforms (q.Consumes queues token) (fun _ _ => True) log := by
  induction limit generalizing log with
  | zero => trivial
  | succ more ih =>
      refine ⟨trivial, fun cancelled => ?_⟩
      cases cancelled with
      | true => trivial
      | false =>
          refine ⟨trivial, fun seen => ?_⟩
          refine ((tries_tryClaim queues).weaken fun _ _ => consumes_of_tries).bind
            fun attempt result ⟨answer, hasked, hfailed⟩ => ?_
          rcases result with e | _ | lease
          · trivial
          · refine ⟨trivial, fun cancelled => ?_⟩
            cases cancelled with
            | true => trivial
            | false =>
                cases answer with
                | error e => cases hfailed e rfl
                | ok found =>
                    refine ⟨⟨rfl, attempt, found, _, rfl, hasked,
                      List.mem_cons_of_mem _ hwatched⟩, fun _ => ih ?_⟩
                    obtain ⟨claims, rfl, _⟩ := hasked
                    simp [hwatched]
          · trivial

theorem consumes_dequeue (q : JobQueue) (queues : List String) (token : TokenRef) (limit : Nat) :
    (q.dequeue queues token limit).Conforms (q.Consumes queues token) (fun _ _ => True) [] := by
  unfold dequeue
  split
  · trivial
  · refine ⟨trivial, fun _ => ⟨trivial, fun cancelled => ?_⟩⟩
    have hwatched : ∀ log, (⟨.watch token q.signal, ()⟩ : Exchange) ∈
        log ++ [(⟨.watch token q.signal, ()⟩ : Exchange)] := by simp
    cases cancelled with
    | false => exact consumes_passes (hwatched [_])
    | true => exact ⟨trivial, fun _ => consumes_passes (hwatched [_, _])⟩

def Looks (q : JobQueue) (queues : List String) : Request → Prop
  | .store target (.query query) =>
    target = q.store ∧ (query = pending queues ∨ ∃ cutoff, query = stale queues cutoff)
  | _ => True

theorem allows_looks {queues : List String} : q.Allows (q.Looks queues) :=
  ⟨fun _ => trivial, trivial, fun _ => trivial⟩

theorem looks_claimFirst {queues : List String} {query : Query}
    (hquery : q.Looks queues (.store q.store (.query query))) :
    (q.claimFirst query).run.Conforms (fun _ => q.Looks queues) (fun _ _ => True) log :=
  (conforms_query hquery).bind_action (fun _ _ _ => allows_looks.claimAny _) fun _ _ _ => trivial

theorem looks_tryClaim (queues : List String) :
    (q.tryClaim queues).run.Conforms (fun _ => q.Looks queues) (fun _ _ => True) log := by
  have hpending : q.Looks queues (.store q.store (.query (pending queues))) := ⟨rfl, .inl rfl⟩
  refine (looks_claimFirst hpending).bind_action (fun log lease _ => ?_) fun _ _ _ => trivial
  cases lease with
  | some lease => trivial
  | none =>
      refine ⟨trivial, fun now => ?_⟩
      dsimp only [Interaction.bind, ExceptT.bindCont, Function.comp]
      cases now.minus? q.invisibility with
      | none => trivial
      | some cutoff => exact looks_claimFirst ⟨rfl, .inr ⟨cutoff, rfl⟩⟩

theorem looks_passes (queues : List String) (token : TokenRef) (limit : Nat) :
    (q.passes queues token limit).Conforms (fun _ => q.Looks queues) (fun _ _ => True) log := by
  induction limit generalizing log with
  | zero => trivial
  | succ more ih =>
      refine ⟨trivial, fun cancelled => ?_⟩
      cases cancelled with
      | true => trivial
      | false =>
          refine ⟨trivial, fun seen => ?_⟩
          refine (looks_tryClaim queues).bind fun log result _ => ?_
          rcases result with e | _ | lease
          · trivial
          · refine ⟨trivial, fun cancelled => ?_⟩
            cases cancelled with
            | true => trivial
            | false => exact ⟨trivial, fun _ => ih⟩
          · trivial

theorem looks_dequeue (q : JobQueue) (queues : List String) (token : TokenRef) (limit : Nat) :
    (q.dequeue queues token limit).Conforms (fun _ => q.Looks queues) (fun _ _ => True) [] := by
  unfold dequeue
  split
  · trivial
  · refine ⟨trivial, fun _ => ⟨trivial, fun cancelled => ?_⟩⟩
    cases cancelled with
    | false => exact looks_passes queues token limit
    | true => exact ⟨trivial, fun _ => looks_passes queues token limit⟩

end JobQueue

end Jobyard
