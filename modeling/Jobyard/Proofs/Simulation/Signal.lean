import Jobyard.Proofs.Simulation.Heard

/-!
Signals and tokens in a world where nothing but programs acts. A signal counts its notifications
and nothing else; a token that was cancelled stays so, and what it watches is watched until
somebody takes it.
-/

namespace Jobyard

def Exchange.notifies (signal : SignalRef) : Exchange → Bool
  | ⟨.notify other, _⟩ => other = signal
  | _ => false

theorem Exchange.notifies_iff {exchange : Exchange} {signal : SignalRef} :
    exchange.notifies signal ↔ exchange = ⟨.notify signal, ()⟩ := by
  obtain ⟨request, reply⟩ := exchange
  cases request <;> simp [notifies]

namespace Simulation

namespace World

variable {w next : World} {request : Request} {reply : request.Reply}

theorem tokens_of_call (hcalm : w.Calm) (store : StoreRef) (call : StoreCall) :
    (w.call store call).2.signals = w.signals ∧ (w.call store call).2.tokens = w.tokens := by
  rw [call_eq_of_calm hcalm]
  cases call with
  | commit batch =>
      simp only [apply, recordCommit]
      split <;> exact ⟨rfl, rfl⟩
  | _ => exact ⟨rfl, rfl⟩

theorem signals_of_reacts (hcalm : w.Calm) (h : w.Reacts request reply next)
    (hnotify : ∀ signal, request ≠ .notify signal) : next.signals = w.signals := by
  cases request with
  | store store call =>
      rcases h with ⟨_, hnext⟩ | ⟨_, _, hsame⟩
      · rw [hnext]
        exact (tokens_of_call hcalm store call).1
      · rw [hsame]
  | notify signal => exact absurd rfl (hnotify signal)
  | watch token signal =>
      rw [h.2]
      change (w.watch token signal).signals = _
      unfold watch
      simp only
      split <;> rfl
  | _ => exact (congrArg World.signals h.2).trans rfl

theorem tokens_of_reacts (hcalm : w.Calm) (h : w.Reacts request reply next)
    (hraise : ∀ token, request ≠ .raise token)
    (hwatch : ∀ token signal, request ≠ .watch token signal)
    (htake : ∀ token, request ≠ .takeWatched token) : next.tokens = w.tokens := by
  cases request with
  | store store call =>
      rcases h with ⟨_, hnext⟩ | ⟨_, _, hsame⟩
      · rw [hnext]
        exact (tokens_of_call hcalm store call).2
      · rw [hsame]
  | raise token => exact absurd rfl (hraise token)
  | watch token signal => exact absurd rfl (hwatch token signal)
  | takeWatched token => exact absurd rfl (htake token)
  | _ => exact (congrArg World.tokens h.2).trans rfl

theorem generation_notify (w : World) (signal other : SignalRef) :
    (w.notify other).generation signal =
      if other = signal then w.generation signal + 1 else w.generation signal := by
  unfold notify generation
  by_cases heq : other = signal
  · subst heq
    rw [if_pos rfl, Dict.find?_insert_self]
    rfl
  · have hindex : signal.index ≠ other.index := by
      intro h
      cases other
      cases signal
      exact heq (congrArg SignalRef.mk h.symm)
    rw [if_neg heq, Dict.find?_insert_of_ne _ _ hindex]

theorem generation_of_reacts {signal : SignalRef} (hcalm : w.Calm)
    (h : w.Reacts request reply next) :
    next.generation signal =
      if Exchange.notifies signal ⟨request, reply⟩ then w.generation signal + 1
      else w.generation signal := by
  by_cases hnotify : ∃ other, request = .notify other
  · obtain ⟨other, rfl⟩ := hnotify
    rw [h.2]
    change (w.notify other).generation signal = _
    rw [generation_notify]
    simp [Exchange.notifies]
  · have hsignals := signals_of_reacts hcalm h fun other heq => hnotify ⟨other, heq⟩
    have hnone : ¬ Exchange.notifies signal ⟨request, reply⟩ := by
      rw [Exchange.notifies_iff]
      intro heq
      exact hnotify ⟨signal, congrArg Exchange.request heq⟩
    unfold generation
    rw [hsignals, if_neg hnone]

section Tokens

variable {t other : TokenRef} {signal : SignalRef}

theorem token_withToken_self (w : World) (t : TokenRef) (token : Token) :
    (w.withToken t token).token t = token := by
  simp [World.token, withToken]

theorem token_withToken_of_ne (w : World) (token : Token) (hne : other ≠ t) :
    (w.withToken t token).token other = w.token other := by
  have hindex : other.index ≠ t.index := by
    intro h
    cases other
    cases t
    exact hne (congrArg TokenRef.mk h)
  simp [World.token, withToken, Dict.find?_insert_of_ne _ _ hindex]

theorem cancelled_of_reacts (hcalm : w.Calm) (h : w.Reacts request reply next) :
    (next.token t).cancelled ↔ (w.token t).cancelled ∨ request = .raise t := by
  have hsame : next.tokens = w.tokens → (∀ other, request ≠ .raise other) →
      ((next.token t).cancelled ↔ (w.token t).cancelled ∨ request = .raise t) := by
    intro htokens hraise
    unfold token
    rw [htokens, or_iff_left (hraise t)]
  cases request with
  | raise other =>
      rw [h.2]
      change ((w.raise other).token t).cancelled ↔ _
      unfold raise
      by_cases ht : t = other
      · subst ht
        rw [token_withToken_self]
        simp
      · rw [token_withToken_of_ne _ _ ht]
        simp [Ne.symm ht]
  | watch other signal =>
      rw [h.2]
      change ((w.watch other signal).token t).cancelled ↔ _
      unfold watch
      simp only
      split
      · simp
      · by_cases ht : t = other
        · subst ht
          rw [token_withToken_self]
          simp
        · rw [token_withToken_of_ne _ _ ht]
          simp
  | takeWatched other =>
      rw [h.2]
      change ((w.takeWatched other).2.token t).cancelled ↔ _
      unfold takeWatched
      by_cases ht : t = other
      · subst ht
        rw [token_withToken_self]
        simp
      · rw [token_withToken_of_ne _ _ ht]
        simp
  | _ => exact hsame (tokens_of_reacts hcalm h (by simp) (by simp) (by simp)) (by simp)

theorem watched_of_reacts (hcalm : w.Calm) (h : w.Reacts request reply next)
    (hwatched : signal ∈ (w.token t).watched) (htake : request ≠ .takeWatched t) :
    signal ∈ (next.token t).watched := by
  cases request with
  | raise other =>
      rw [h.2]
      change signal ∈ ((w.raise other).token t).watched
      unfold raise
      by_cases ht : t = other
      · subst ht
        rw [token_withToken_self]
        exact hwatched
      · rwa [token_withToken_of_ne _ _ ht]
  | watch other more =>
      rw [h.2]
      change signal ∈ ((w.watch other more).token t).watched
      unfold watch
      simp only
      split
      · exact hwatched
      · by_cases ht : t = other
        · subst ht
          rw [token_withToken_self]
          exact List.mem_append_left _ hwatched
        · rwa [token_withToken_of_ne _ _ ht]
  | takeWatched other =>
      have ht : t ≠ other := by
        rintro rfl
        exact htake rfl
      rw [h.2]
      change signal ∈ ((w.takeWatched other).2.token t).watched
      unfold takeWatched
      rwa [token_withToken_of_ne _ _ ht]
  | _ =>
      unfold token at hwatched ⊢
      rwa [tokens_of_reacts hcalm h (by simp) (by simp) (by simp)]

theorem watched_of_watch {reply : Unit} (h : w.Reacts (.watch t signal) reply next) :
    signal ∈ (next.token t).watched := by
  rw [h.2]
  change signal ∈ ((w.watch t signal).token t).watched
  unfold watch
  simp only
  split
  · rename_i hcontains
    exact List.contains_iff_mem.mp hcontains
  · rw [token_withToken_self]
    exact List.mem_append_right _ List.mem_cons_self

end Tokens

end World

variable {τ ρ : Type}

def Event.notifies (signal : SignalRef) : Event τ ρ → Bool
  | .proceeded _ thread => thread.log.head?.any (·.notifies signal)
  | _ => false

theorem Event.notifies_of_heard {event : Event τ ρ} {signal : SignalRef} {n : Nat}
    {exchange : Exchange} (hheard : event.heard? n = some exchange) :
    event.notifies signal = exchange.notifies signal := by
  cases event with
  | proceeded k thread =>
      by_cases hk : n = k
      · subst hk
        rw [heard?_proceeded_self] at hheard
        change thread.log.head?.any _ = _
        rw [hheard, Option.any_some]
      · rw [heard?_proceeded_of_ne thread hk] at hheard
        cases hheard
  | _ => cases hheard

theorem Event.not_notifies_of_unheard {event : Event τ ρ} {signal : SignalRef}
    (hunheard : ∀ n, event.heard? n = none) : event.notifies signal = false := by
  cases event with
  | proceeded n thread =>
      change thread.log.head?.any _ = _
      rw [← heard?_proceeded_self n thread, hunheard n, Option.any_none]
  | _ => rfl

def notifications (signal : SignalRef) (history : List (Event τ ρ)) : Nat :=
  history.countP (·.notifies signal)

namespace Yard

variable {program : τ → Program ρ} {admits : τ → Prop} {y last : Yard τ ρ}
  {event : Event τ ρ} {history : List (Event τ ρ)} {t : TokenRef} {signal : SignalRef}

theorem Step.generation_eq (hcalm : y.world.Calm) (hstep : Step program admits y event last) :
    last.world.generation signal =
      if event.notifies signal then y.world.generation signal + 1
      else y.world.generation signal := by
  rcases hstep.heard_cases with ⟨hnone, time, hworld⟩ | ⟨n, exchange, hheard, hreacts⟩
  · rw [hworld, Event.not_notifies_of_unheard hnone]
    rfl
  · rw [Event.notifies_of_heard hheard]
    exact World.generation_of_reacts hcalm hreacts

theorem Run.generation_eq (hcalm : y.world.Calm) (hrun : Run program admits y history last) :
    last.world.generation signal =
      y.world.generation signal + UInt64.ofNat (notifications signal history) := by
  induction hrun with
  | refl => exact (UInt64.add_zero _).symm
  | @step history event middle last hrun hstep ih =>
      rw [hstep.generation_eq (hrun.calm hcalm), ih]
      unfold notifications
      rw [List.countP_cons]
      split
      · rw [UInt64.ofNat_add, ← UInt64.add_assoc]
        rfl
      · rfl

/-- Fewer notifications than a signal can count are noticed. -/
theorem Run.notifications_eq_zero (hcalm : y.world.Calm)
    (hrun : Run program admits y history last)
    (hsame : last.world.generation signal = y.world.generation signal)
    (hfew : notifications signal history < UInt64.size) : notifications signal history = 0 := by
  have hgeneration : last.world.generation signal = _ := hrun.generation_eq hcalm
  rw [hsame] at hgeneration
  have hnat := congrArg UInt64.toNat hgeneration
  rw [UInt64.toNat_add, UInt64.toNat_ofNat'] at hnat
  have hbound := UInt64.toNat_lt (y.world.generation signal)
  -- The generation wraps: as many notifications as it has values would leave no trace.
  unfold UInt64.size at hfew
  omega

theorem Step.cancelled_iff (hcalm : y.world.Calm) (hstep : Step program admits y event last) :
    (last.world.token t).cancelled ↔
      (y.world.token t).cancelled ∨ ∃ n, event.heard? n = some ⟨.raise t, ()⟩ := by
  rcases hstep.heard_cases with ⟨hnone, time, hworld⟩ | ⟨n, exchange, hheard, hreacts⟩
  · rw [hworld, or_iff_left (fun ⟨n, hraised⟩ => by rw [hnone n] at hraised; cases hraised)]
    rfl
  · rw [World.cancelled_of_reacts hcalm hreacts]
    refine or_congr Iff.rfl ⟨fun hraise => ⟨n, ?_⟩, fun ⟨k, hraised⟩ => ?_⟩
    · obtain ⟨request, reply⟩ := exchange
      cases hraise
      exact hheard
    · exact congrArg Exchange.request (heard?_unique hraised hheard).2

theorem Run.cancelled_iff (hcalm : y.world.Calm) (hrun : Run program admits y history last) :
    (last.world.token t).cancelled ↔
      (y.world.token t).cancelled ∨ ∃ n, ⟨.raise t, ()⟩ ∈ heard n history := by
  induction hrun with
  | refl => simp [heard]
  | step hrun hstep ih =>
      rw [hstep.cancelled_iff (hrun.calm hcalm), ih, or_assoc, ← exists_or]
      refine or_congr Iff.rfl (exists_congr fun n => ?_)
      rw [heard_cons, List.mem_append, Option.mem_toList, or_comm]

theorem Run.watched (hcalm : y.world.Calm) (hrun : Run program admits y history last)
    (hwatched : signal ∈ (y.world.token t).watched) :
    (signal ∈ (last.world.token t).watched ∧ ∀ n signals,
      ⟨.takeWatched t, signals⟩ ∉ heard n history) ∨
      ∃ n signals, ⟨.takeWatched t, signals⟩ ∈ heard n history ∧ signal ∈ signals := by
  induction hrun with
  | refl => exact .inl ⟨hwatched, fun _ _ hmem => nomatch hmem⟩
  | @step history event middle last hrun hstep ih =>
      rcases ih with ⟨hmiddle, huntaken⟩ | ⟨n, signals, htaken, hmem⟩
      · rcases hstep.heard_cases with ⟨hnone, time, hworld⟩ | ⟨n, exchange, hheard, hreacts⟩
        · left
          rw [hworld]
          refine ⟨hmiddle, fun n signals => ?_⟩
          rw [heard_cons, hnone n]
          exact huntaken n signals
        · by_cases htake : exchange.request = .takeWatched t
          · right
            obtain ⟨request, reply⟩ := exchange
            cases htake
            refine ⟨n, reply, ?_, ?_⟩
            · rw [heard_cons, hheard]
              exact List.mem_cons_self
            · rw [show reply = (middle.world.token t).watched from hreacts.1]
              exact hmiddle
          · left
            refine ⟨World.watched_of_reacts (hrun.calm hcalm) hreacts hmiddle htake,
              fun k signals hmem => ?_⟩
            rw [heard_cons, List.mem_append, Option.mem_toList] at hmem
            rcases hmem with hlast | hearlier
            · rw [(heard?_unique hlast hheard).2] at htake
              exact htake rfl
            · exact huntaken k signals hearlier
      · refine .inr ⟨n, signals, ?_, hmem⟩
        rw [heard_cons]
        exact List.mem_append_right _ htaken

end Yard

end Simulation

end Jobyard
