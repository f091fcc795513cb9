import Jobyard.Connection.Collection
import Jobyard.Proofs.Counter.Tally

/-!
Transactions on counters as they are built: call by call, each call chosen in view of the earlier
results, until the transaction is committed or dropped. Whatever they are told, they send one batch
at most, as their last request, and the batch is that of a session which tallies their calls.
-/

namespace Jobyard

inductive CounterPlan
  | drop
  | commit
  | add (key : String) (delta : Int) (length : Option Duration)
      (next : Except StoreError Unit → CounterPlan)

namespace CounterPlan

structure Settlement where
  calls : List Addition
  result : Option (Except StoreError Unit)

def Settlement.gains : Settlement → List Addition
  | ⟨calls, some (.ok _)⟩ => calls
  | _ => []

def program : CounterPlan → Transaction → List Addition → Program Settlement
  | drop, _, calls => pure ⟨calls, none⟩
  | commit, t, calls => do
    let (result, _) ← Step.commit.start t
    pure ⟨calls, some result⟩
  | add key delta length next, t, calls => do
    let (result, t) ← (Step.addToCounter key delta length).start t
    (next result).program t (if result.isOk then calls ++ [(key, delta)] else calls)

/-- After an accepted batch nothing is asked any more. -/
def Asks (store : StoreRef) (log : Log) (request : Request) : Prop :=
  log.accepted? = none ∧ ∀ target batch, request = .store target (.commit batch) → target = store

/-- The calls that are gained are those of a session with the batch that has just been accepted. -/
def Ends (store : StoreRef) (log : Log) (settlement : Settlement) : Prop :=
  ∃ s : Session, s.Tallies store settlement.gains ∧ s.batch = log.accepted?.getD []

section Calls

variable {store : StoreRef} {log : Log} {calls : List Addition} {s : Session} {key : String}
  {delta : Int}

theorem conforms_ensureLoaded (h : s.Tallies store calls) (hopen : log.accepted? = none) :
    (Work.start (Work.ensureLoaded [Document.idFor Counter key]) s).Conforms (Asks store)
      (fun log result => log.accepted? = none ∧ result.2.Tallies store calls) log := by
  rw [Work.start_ensureLoaded]
  split
  · exact ⟨hopen, h⟩
  · rename_i hmissing
    refine ⟨⟨hopen, fun _ _ heq => nomatch heq⟩, fun reply => ?_⟩
    cases reply with
    | error e => exact ⟨rfl, h⟩
    | ok loaded =>
        have hnone : s.find? (Document.idFor Counter key) = none := by
          simpa [Work.missing, Session.isTracked] using hmissing
        have hall : Work.missing s [Document.idFor Counter key] = [Document.idFor Counter key] := by
          simp [Work.missing, Session.isTracked, hnone]
        rw [hall]
        exact ⟨rfl, h.absorb hnone loaded⟩

theorem conforms_load (h : s.Tallies store calls) (hopen : log.accepted? = none) :
    (Work.start (Work.load Counter (Document.idFor Counter key)) s).Conforms (Asks store)
      (fun log result => log.accepted? = none ∧ result.2.Tallies store calls ∧
        ∀ found, result.1 = .ok found →
          ((result.2.find? (Document.idFor Counter key)).getD .unasked).decode Counter
            (Document.idFor Counter key) = .ok found) log := by
  unfold Work.load
  rw [Work.start_bind]
  refine (conforms_ensureLoaded h hopen).bind fun log result ⟨hopen, htallies⟩ => ?_
  obtain ⟨result, s⟩ := result
  cases result with
  | error e => exact ⟨hopen, htallies, fun _ heq => nomatch heq⟩
  | ok _ =>
      simp only
      rw [Work.start_view]
      refine ⟨hopen, htallies, fun found hfound => ?_⟩
      cases hseen : s.find? (Document.idFor Counter key) with
      | none =>
          rw [hseen] at hfound
          exact hfound
      | some t =>
          rw [hseen] at hfound
          exact hfound

theorem conforms_expiry (s : Session) (length : Option Duration) (hopen : log.accepted? = none) :
    (Work.start (length.mapM fun length => do pure ((← Work.now).expiresIn length)) s).Conforms
      (Asks store) (fun log result => log.accepted? = none ∧ result.2 = s) log := by
  cases length with
  | none => exact ⟨hopen, rfl⟩
  | some length => exact ⟨⟨hopen, fun _ _ heq => nomatch heq⟩, fun _ => ⟨rfl, rfl⟩⟩

theorem conforms_addToCounter {t : Transaction} (h : t.session.Tallies store calls)
    (hopen : log.accepted? = none) (key : String) (delta : Int) (length : Option Duration) :
    ((Step.addToCounter key delta length).start t).Conforms (Asks store)
      (fun log result => log.accepted? = none ∧ result.2.afterCommit = t.afterCommit ∧
        result.2.session.Tallies store
          (if result.1.isOk then calls ++ [(key, delta)] else calls)) log := by
  rw [Step.addToCounter_eq]
  have hwork : (Work.start (do
      let expiresAt ← length.mapM fun length => do pure ((← Work.now).expiresIn length)
      let found ← Work.load Counter (Document.idFor Counter key)
      Work.addTo (Document.idFor Counter key) delta expiresAt found) t.session).Conforms
        (Asks store) (fun log result => log.accepted? = none ∧
          result.2.Tallies store (if result.1.isOk then calls ++ [(key, delta)] else calls))
        log := by
    rw [Work.start_bind]
    refine (conforms_expiry t.session length hopen).bind fun log result ⟨hopen, hsame⟩ => ?_
    obtain ⟨result, s⟩ := result
    subst hsame
    cases result with
    | error e => exact ⟨hopen, h⟩
    | ok expiresAt =>
        simp only
        rw [Work.start_bind]
        refine (conforms_load h hopen).bind fun log result ⟨hopen, htallies, hread⟩ => ?_
        obtain ⟨result, s⟩ := result
        cases result with
        | error e => exact ⟨hopen, htallies⟩
        | ok found =>
            obtain ⟨t, writes, hadd, hstart⟩ := Work.start_addTo (hread found rfl) delta expiresAt
            simp only
            rw [hstart]
            exact ⟨hopen, htallies.amend hadd⟩
  exact hwork.bind fun _ _ ⟨hopen, htallies⟩ => ⟨hopen, rfl, htallies⟩

theorem conforms_commit {t : Transaction} (h : t.session.Tallies store calls)
    (hopen : log.accepted? = none) (hwaits : t.afterCommit = []) :
    (Step.commit.start t).Conforms (Asks store)
      (fun log result => Ends store log ⟨calls, some result.1⟩) log := by
  rw [Step.start_commit, Work.start_saveChanges, hwaits]
  split
  · rename_i hempty
    refine ⟨t.session, h, ?_⟩
    rw [hopen]
    exact List.isEmpty_iff.mp hempty
  · rw [h.store]
    refine ⟨⟨hopen, fun _ _ heq => ?_⟩, fun reply => ?_⟩
    · cases heq
      rfl
    · cases reply with
      | ok _ => exact ⟨t.session, h, rfl⟩
      | error e => exact ⟨_, Session.tallies_empty store, rfl⟩

end Calls

theorem conforms (plan : CounterPlan) {store : StoreRef} {log : Log} {calls : List Addition}
    {t : Transaction} (h : t.session.Tallies store calls) (hopen : log.accepted? = none)
    (hwaits : t.afterCommit = []) :
    (plan.program t calls).Conforms (Asks store) (Ends store) log := by
  induction plan generalizing log calls t with
  | drop =>
      refine ⟨_, Session.tallies_empty store, ?_⟩
      rw [hopen]
      rfl
  | commit => exact (conforms_commit h hopen hwaits).bind fun _ _ hends => hends
  | add key delta length next ih =>
      refine (conforms_addToCounter h hopen key delta length).bind
        fun log result ⟨hopen, hsame, htallies⟩ => ?_
      exact ih result.1 htallies hopen (hsame.trans hwaits)

end CounterPlan

end Jobyard
