import Jobyard.Reaper

/-!
The conduct of programs: which requests a program makes, given what it was told so far, and what it
ends with. Conduct is stated over all replies, so that it holds in every world and under every
interleaving.
-/

namespace Jobyard

structure Exchange where
  request : Request
  reply : request.Reply

/-- The exchanges that a program has had, the latest first. -/
abbrev Log := List Exchange

namespace Exchange

def accepted? : Exchange → Option Batch
  | ⟨.store _ (.commit batch), .ok _⟩ => some batch
  | _ => none

def Loads (exchange : Exchange) (store : StoreRef) (id : DocId) (d : Stored) : Prop :=
  match exchange with
  | ⟨.store target (.load ids), .ok loaded⟩ => target = store ∧ (id, some d) ∈ ids.zip loaded
  | _ => False

def Finds (exchange : Exchange) (store : StoreRef) (collection : String) (id : DocId) : Prop :=
  match exchange with
  | ⟨.store target (.query q), .ok found⟩ =>
    target = store ∧ q.collection = collection ∧ ∃ d ∈ found, Stored.id d = id
  | _ => False

end Exchange

namespace Log

def Committed (log : Log) : Prop := ∃ exchange ∈ log, exchange.accepted?.isSome

def accepted? (log : Log) : Option Batch := log.head?.bind Exchange.accepted?

def commits (log : Log) : List Batch := log.filterMap Exchange.accepted?

def landed (log : Log) : Bool := (log.head?.bind Exchange.accepted?).isSome

def drawn (log : Log) : List String :=
  log.filterMap fun exchange =>
    match exchange with
    | ⟨.freshText, text⟩ => some text
    | _ => none

theorem committed_cons {exchange : Exchange} {log : Log} :
    Committed (exchange :: log) ↔ exchange.accepted?.isSome ∨ log.Committed := by
  simp [Committed]

theorem not_committed_cons (exchange : Exchange) {log : Log} (h : exchange.accepted? = none)
    (hnone : ¬ log.Committed) : ¬ Committed (exchange :: log) := by
  rw [committed_cons, h]
  exact fun hsome => hsome.elim (fun hfalse => nomatch hfalse) hnone

theorem not_committed_nil : ¬ Committed [] := fun ⟨_, hmem, _⟩ => nomatch hmem

theorem commits_eq_nil {log : Log} (h : ¬ log.Committed) : log.commits = [] := by
  refine List.filterMap_eq_nil_iff.mpr fun exchange hmem => ?_
  exact Option.not_isSome_iff_eq_none.mp fun haccepted => h ⟨exchange, hmem, haccepted⟩

theorem drawn_freshText (text : String) (log : Log) :
    drawn (⟨.freshText, text⟩ :: log) = text :: log.drawn := rfl

theorem mem_drawn_iff {text : String} {log : Log} :
    text ∈ log.drawn ↔ ⟨.freshText, text⟩ ∈ log := by
  unfold drawn
  rw [List.mem_filterMap]
  constructor
  · rintro ⟨exchange, hmem, htext⟩
    split at htext
    · cases htext
      exact hmem
    · cases htext
  · intro hmem
    exact ⟨_, hmem, rfl⟩

theorem drawn_of_ne_freshText {request : Request} (hne : request ≠ .freshText)
    (reply : request.Reply) (log : Log) : drawn (⟨request, reply⟩ :: log) = log.drawn := by
  cases request with
  | freshText => exact absurd rfl hne
  | _ => rfl

end Log

namespace Program

variable {α β : Type} {allowed : Log → Request → Prop} {log : Log}

/-- Whatever the replies, the program makes only allowed requests and ends as it should. -/
def Conforms (allowed : Log → Request → Prop) (ends : Log → α → Prop) (log : Log) :
    Program α → Prop
  | .done value => ends log value
  | .call request next =>
    allowed log request ∧ ∀ reply, Conforms allowed ends (⟨request, reply⟩ :: log) (next reply)

variable {ends : Log → α → Prop}

theorem conforms_true (p : Program α) :
    p.Conforms (fun _ _ => True) (fun _ _ => True) log := by
  induction p generalizing log with
  | done value => trivial
  | call request next ih => exact ⟨trivial, fun reply => ih reply⟩

theorem Conforms.bind {middle : Log → α → Prop} {ends : Log → β → Prop} {p : Program α}
    {f : α → Program β} (hp : Conforms allowed middle log p)
    (hf : ∀ log value, middle log value → Conforms allowed ends log (f value)) :
    Conforms allowed ends log (p >>= f) := by
  induction p generalizing log with
  | done value => exact hf log value hp
  | call request next ih => exact ⟨hp.1, fun reply => ih reply (hp.2 reply)⟩

theorem Conforms.bind_action {middle : Log → Except StoreError α → Prop}
    {ends : Log → Except StoreError β → Prop} {a : Action α} {f : α → Action β}
    (ha : Conforms allowed middle log a.run)
    (hok : ∀ log value, middle log (.ok value) → Conforms allowed ends log (f value).run)
    (herror : ∀ log e, middle log (.error e) → ends log (.error e)) :
    Conforms allowed ends log (a >>= f).run := by
  refine Conforms.bind ha fun log result hmiddle => ?_
  cases result with
  | ok value => exact hok log value hmiddle
  | error e => exact herror log e hmiddle

theorem Conforms.mono {other : Log → α → Prop} {p : Program α} (hp : Conforms allowed ends log p)
    (himp : ∀ log value, ends log value → other log value) : Conforms allowed other log p := by
  induction p generalizing log with
  | done value => exact himp log value hp
  | call request next ih => exact ⟨hp.1, fun reply => ih reply (hp.2 reply)⟩

theorem Conforms.weaken {wider : Log → Request → Prop} {p : Program α}
    (hp : Conforms allowed ends log p)
    (hwider : ∀ log request, allowed log request → wider log request) :
    Conforms wider ends log p := by
  induction p generalizing log with
  | done value => exact hp
  | call request next ih => exact ⟨hwider _ _ hp.1, fun reply => ih reply (hp.2 reply)⟩

/-- What is true of a log and stays so whatever a program is told is true at its end. -/
theorem Conforms.and_of_stable {p : Program α} {known : Log → Prop}
    (hp : Conforms allowed ends log p) (hknown : known log)
    (hstable : ∀ log exchange, known log → known (exchange :: log)) :
    Conforms allowed (fun log value => ends log value ∧ known log) log p := by
  induction p generalizing log with
  | done value => exact ⟨hp, hknown⟩
  | call request next ih =>
      exact ⟨hp.1, fun reply => ih reply (hp.2 reply) (hstable log ⟨request, reply⟩ hknown)⟩

theorem Conforms.extends {holds : Request → Prop} {p : Program α}
    (hp : p.Conforms allowed ends log)
    (hholds : ∀ log request, allowed log request → holds request) :
    p.Conforms allowed (fun last value => ends last value ∧
      ∃ front, last = front ++ log ∧ ∀ exchange ∈ front, holds exchange.request) log := by
  induction p generalizing log with
  | done value => exact ⟨hp, [], rfl, fun _ hmem => nomatch hmem⟩
  | call request next ih =>
      refine ⟨hp.1, fun reply => (ih reply (hp.2 reply)).mono fun last value ⟨hends, hfront⟩ => ?_⟩
      obtain ⟨front, rfl, hfront⟩ := hfront
      refine ⟨hends, front ++ [⟨request, reply⟩], List.append_cons front _ log, ?_⟩
      intro exchange hmem
      rcases List.mem_append.mp hmem with hearlier | hlast
      · exact hfront exchange hearlier
      · rw [List.mem_singleton.mp hlast]
        exact hholds log request hp.1

/-- Whatever answers a program, it ends as its conduct says. -/
theorem Conforms.ends_run {σ : Type} {p : Program α} (hp : p.Conforms allowed ends log)
    (answer : (request : Request) → StateM σ request.Reply) (state : σ) :
    ∃ log, ends log ((p.run answer).run state).1 := by
  induction p generalizing log state with
  | done value => exact ⟨log, hp⟩
  | call request next ih =>
      exact ih ((answer request).run state).1 (hp.2 _) ((answer request).run state).2

end Program

theorem Reaper.conforms_runOnce (r : Reaper) (rounds : Nat) {allowed : Log → Request → Prop}
    (hnow : ∀ log, allowed log .now)
    (hpurge : ∀ log now limit, allowed log (.store r.store (.purge now limit))) :
    (r.runOnce rounds).run.Conforms allowed (fun _ _ => True) [] := by
  have hdrain : ∀ now total log,
      (r.drain now total rounds).run.Conforms allowed (fun _ _ => True) log := by
    intro now
    induction rounds with
    | zero => exact fun _ _ => trivial
    | succ more ih =>
        intro total log
        refine ⟨hpurge log now r.batchSize, fun reply => ?_⟩
        cases reply with
        | error e => trivial
        | ok purged =>
            change Program.Conforms _ _ _ (ExceptT.run (if purged < r.batchSize then
              pure (some (total + purged)) else r.drain now (total + purged) more))
            split
            · trivial
            · exact ih _ _
  exact ⟨hnow [], fun now => hdrain now 0 _⟩

end Jobyard
