import Jobyard.Proofs.Session.Sight

/-!
Work on one document, whatever the store answers. The store is asked for the document at most once,
and the work is a change of what the session then holds of it.
-/

namespace Jobyard

/-- What a store has told of a document: nothing, that there is none, or what it has. -/
inductive Log.Reports (log : Log) (store : StoreRef) (id : DocId) : Tracked → Prop
  | silent : Reports log store id .unasked
  | absent : Reports log store id .absent
  | stored (d : Stored) (hloads : ∃ exchange ∈ log, exchange.Loads store id d) :
    Reports log store id (.ofStored d)

theorem Log.reports_of_loads {log : Log} {store : StoreRef} {id : DocId} {ids : List DocId}
    {loaded : List (Option Stored)} {document : Option Stored}
    (hmem : (id, document) ∈ ids.zip loaded) :
    Log.Reports (⟨.store store (.load ids), .ok loaded⟩ :: log) store id (.ofLoaded document) := by
  cases document with
  | none => exact .absent
  | some d => exact .stored d ⟨_, List.mem_cons_self, rfl, hmem⟩

namespace Session

/-- What work finds of a document: what the session holds of it, or else what the store told. -/
def Glimpses (s : Session) (log : Log) (id : DocId) (t : Tracked) : Prop :=
  s.find? id = some t ∨ s.find? id = none ∧ log.Reports s.store id t

structure Amends (s next : Session) (id : DocId) (t : Tracked) (writes : List Write) : Prop where
  store : next.store = s.store
  optimistic : next.optimistic = s.optimistic
  deferred : next.deferred = s.deferred ++ writes
  self : (next.find? id).getD .unasked = t
  others : ∀ other, other ≠ id → next.find? other = s.find? other
  distinct : s.Distinct → next.Distinct

variable {s middle next : Session} {log : Log} {id : DocId} {t u : Tracked}
  {writes more : List Write}

theorem glimpses_getD (s : Session) (log : Log) (id : DocId) :
    s.Glimpses log id ((s.find? id).getD .unasked) := by
  cases hfound : s.find? id with
  | none => exact .inr ⟨hfound, .silent⟩
  | some t => exact .inl hfound

theorem Glimpses.cons (h : s.Glimpses log id t) (exchange : Exchange) :
    s.Glimpses (exchange :: log) id t := by
  rcases h with hheld | ⟨hnone, hreports⟩
  · exact .inl hheld
  · refine .inr ⟨hnone, ?_⟩
    cases hreports with
    | silent => exact .silent
    | absent => exact .absent
    | stored d hloads =>
        obtain ⟨shown, hmem, hloads⟩ := hloads
        exact .stored d ⟨shown, List.mem_cons_of_mem _ hmem, hloads⟩

theorem amends_self (s : Session) (id : DocId) :
    s.Amends s id ((s.find? id).getD .unasked) [] :=
  ⟨rfl, rfl, (List.append_nil _).symm, rfl, fun _ _ => rfl, fun h => h⟩

theorem amends_track (s : Session) (id : DocId) (t : Tracked) :
    s.Amends (s.track id t) id t [] where
  store := rfl
  optimistic := rfl
  deferred := (List.append_nil _).symm
  self := by rw [find?_track_self, Option.getD_some]
  others other hne := (find?_track s id other t).trans (if_neg hne)
  distinct h := h.track id t

theorem Amends.trans (hfirst : s.Amends middle id t writes)
    (hsecond : middle.Amends next id u more) : s.Amends next id u (writes ++ more) where
  store := hsecond.store.trans hfirst.store
  optimistic := hsecond.optimistic.trans hfirst.optimistic
  deferred := by rw [hsecond.deferred, hfirst.deferred, List.append_assoc]
  self := hsecond.self
  others other hne := (hsecond.others other hne).trans (hfirst.others other hne)
  distinct h := hsecond.distinct (hfirst.distinct h)

theorem Amends.track (h : s.Amends middle id t writes) (u : Tracked) :
    s.Amends (middle.track id u) id u writes := by
  have htrack := h.trans (middle.amends_track id u)
  rwa [List.append_nil] at htrack

theorem Amends.put (h : s.Amends middle id t writes) (body : Json) :
    s.Amends (middle.put id body) id (t.hold body) writes := by
  rw [put_eq_track, h.self]
  exact h.track _

theorem Amends.delete (h : s.Amends middle id t writes) :
    s.Amends (middle.delete id) id t.drop writes := by
  rw [delete_eq_track, h.self]
  exact h.track _

theorem Amends.find?_of_present (h : s.Amends next id t writes) (hpresent : t.isPresent = true) :
    next.find? id = some t := by
  have hself := h.self
  cases hfound : next.find? id with
  | some u => exact congrArg some (by rwa [hfound] at hself)
  | none =>
      rw [hfound, Option.getD_none] at hself
      rw [← hself] at hpresent
      cases hpresent

inductive Yields {α : Type} (s : Session) (id : DocId) :
    Except StoreError α × Tracked × List Write → Except StoreError α × Session → Prop
  | amended {result : Except StoreError α} {t : Tracked} {writes : List Write} {next : Session}
      (h : s.Amends next id t writes) : Yields s id (result, t, writes) (result, next)

end Session

/-- What work on one document makes of what it finds: its result, what is held of the document
afterwards, and the writes that are deferred. -/
abbrev Handling (α : Type) := Tracked → Except StoreError α × Tracked × List Write

namespace Handling

variable {α β : Type}

def bind (f : Handling α) (g : α → Handling β) : Handling β := fun seen =>
  match f seen with
  | (.ok value, t, writes) => ((g value t).1, (g value t).2.1, writes ++ (g value t).2.2)
  | (.error e, t, writes) => (.error e, t, writes)

def discard (f : Handling α) : Handling Unit :=
  fun seen => ((f seen).1.map fun _ => (), (f seen).2)

def give (value : Except StoreError α) : Handling α := fun seen => (value, seen, [])

def load (α : Type) [Document α] (id : DocId) : Handling (Option α) :=
  fun seen => (seen.decode α id, seen, [])

def save [Document α] (document : α) : Handling Unit :=
  fun seen => (.ok (), seen.hold (Document.encode document), [])

def drop : Handling Unit := fun seen => (.ok (), seen.drop, [])

def loadOrBlank (α : Type) [FindOrCreate α] (id : DocId) : Handling α := fun seen =>
  match seen.fill α id with
  | .ok (document, t) => (.ok document, t, [])
  | .error e => (.error e, seen, [])

def updateExpiry (expiresAt : Option Instant) : Handling Bool := fun seen =>
  (.ok seen.isPresent, if seen.isPresent then seen.date expiresAt else seen, [])

end Handling

namespace Work

variable {α β : Type} {s : Session} {log : Log} {id : DocId} {t : Tracked}

def Observes (store : StoreRef) (log : Log) (request : Request) : Prop :=
  log.accepted? = none ∧ (request = .now ∨ ∃ ids, request = .store store (.load ids))

/-- Work that does with a document what `f` says, unless the store fails to show it. -/
def Handles (id : DocId) (f : Instant → Handling α) (work : Work α) : Prop :=
  ∀ (s : Session) (log : Log), log.accepted? = none →
    (work.start s).Conforms (Observes s.store)
      (fun log result => log.accepted? = none ∧
        ((∃ e, result = (.error e, s)) ∨
          ∃ seen now, s.Glimpses log id seen ∧ s.Yields id (f now seen) result)) log

def Settles (id : DocId) (t : Tracked) (f : Instant → Handling α) (work : Work α) : Prop :=
  ∀ (s : Session) (log : Log), log.accepted? = none → (s.find? id).getD .unasked = t →
    (work.start s).Conforms (Observes s.store)
      (fun log result => log.accepted? = none ∧ ∃ now, s.Yields id (f now t) result) log

theorem settles_throw (e : StoreError) :
    Settles id t (fun _ => .give (.error e)) (throw e : Work α) := by
  rintro s log hopen rfl
  exact ⟨hopen, .origin, .amended (s.amends_self id)⟩

theorem settles_save [Document α] (document : α) :
    Settles id t (fun _ => .save document) (save id document) := by
  rintro s log hopen rfl
  exact ⟨hopen, .origin, .amended ((s.amends_self id).put _)⟩

theorem settles_delete : Settles id t (fun _ => .drop) (delete id) := by
  rintro s log hopen rfl
  exact ⟨hopen, .origin, .amended (s.amends_self id).delete⟩

theorem settles_updateExpiry (hpresent : t.isPresent = true) (expiresAt : Option Instant) :
    Settles id t (fun _ => .updateExpiry expiresAt) (updateExpiry id expiresAt) := by
  rintro s log hopen rfl
  have hfound := (s.amends_self id).find?_of_present hpresent
  have hstart : start (updateExpiry id expiresAt) (s.track id ((s.find? id).getD .unasked)) = _ :=
    start_updateExpiry_track hpresent expiresAt
  rw [Session.track_of_find? hfound] at hstart
  rw [hstart]
  refine ⟨hopen, .origin, ?_⟩
  simp only [Handling.updateExpiry, hpresent, if_true]
  exact .amended (s.amends_track id _)

theorem Settles.now {f : Instant → Handling α} {k : Instant → Work α}
    (h : ∀ now, Settles id t (fun _ => f now) (k now)) : Settles id t f (Work.now >>= k) := by
  intro s log hopen hheld
  rw [start_bind, start_now]
  refine ⟨⟨hopen, .inl rfl⟩, fun now => ?_⟩
  exact (h now s _ rfl hheld).mono fun log result ⟨hopen, _, hends⟩ => ⟨hopen, now, hends⟩

theorem yields_trans {first : Except StoreError α × Tracked × List Write} {middle : Session}
    {writes : List Write} {result : Except StoreError α × Session}
    (hmiddle : s.Amends middle id t writes) (h : middle.Yields id first result) :
    s.Yields id (first.1, first.2.1, writes ++ first.2.2) result := by
  cases h with
  | amended h => exact .amended (hmiddle.trans h)

theorem yields_discard {outcome : Except StoreError α × Tracked × List Write}
    {result : Except StoreError α × Session} (h : s.Yields id outcome result) :
    s.Yields id (outcome.1.map fun _ => (), outcome.2) (result.1.map fun _ => (), result.2) := by
  cases h with
  | amended h => exact .amended h

theorem start_discard (work : Work α) (s : Session) :
    start (discard work) s = start work s >>= fun result =>
      .done (result.1.map fun _ => (), result.2) := by
  change start (work >>= fun _ => pure ()) s = _
  rw [start_bind]
  congr 1
  funext ⟨result, next⟩
  cases result <;> rfl

theorem Settles.discard {f : Instant → Handling α} {work : Work α} (h : Settles id t f work) :
    Settles id t (fun now => (f now).discard) (discard work) := by
  intro s log hopen hheld
  rw [start_discard]
  exact (h s log hopen hheld).bind fun log result ⟨hopen, now, hends⟩ =>
    ⟨hopen, now, yields_discard hends⟩

theorem Handles.discard {f : Instant → Handling α} {work : Work α} (h : Handles id f work) :
    Handles id (fun now => (f now).discard) (discard work) := by
  intro s log hopen
  rw [start_discard]
  refine (h s log hopen).bind fun log result ⟨hopen, hends⟩ => ⟨hopen, ?_⟩
  rcases hends with ⟨e, rfl⟩ | ⟨seen, now, hseen, hends⟩
  · exact .inl ⟨e, rfl⟩
  · exact .inr ⟨seen, now, hseen, yields_discard hends⟩

theorem handles_of_settles {f : Instant → Handling α} {work : Work α}
    (h : ∀ t, Settles id t f work) : Handles id f work := by
  intro s log hopen
  exact (h _ s log hopen rfl).mono fun log result ⟨hopen, now, hends⟩ =>
    ⟨hopen, .inr ⟨_, now, s.glimpses_getD log id, hends⟩⟩

/-- After the document is found, the rest of the work need not look at it again. -/
theorem Handles.bind {f : Handling α} {g : α → Instant → Handling β} {work : Work α}
    {k : α → Work β} (h : Handles id (fun _ => f) work)
    (hk : ∀ seen value t writes, f seen = (.ok value, t, writes) →
      Settles id t (g value) (k value)) :
    Handles id (fun now => f.bind fun value => g value now) (work >>= k) := by
  intro s log hopen
  rw [start_bind]
  refine (h s log hopen).bind fun log result ⟨hopen, hends⟩ => ?_
  rcases hends with ⟨e, rfl⟩ | ⟨seen, now, hseen, hends⟩
  · exact ⟨hopen, .inl ⟨e, rfl⟩⟩
  · generalize hf : (fun _ => f) now seen = outcome at hends
    cases hends with
    | @amended result t writes next hnext =>
      change f seen = _ at hf
      cases result with
      | error e =>
          refine ⟨hopen, .inr ⟨seen, now, hseen, ?_⟩⟩
          simp only [Handling.bind, hf]
          exact .amended hnext
      | ok value =>
          rw [← hnext.store]
          refine ((hk seen value t writes hf next log hopen hnext.self).and_of_stable hseen
            fun _ exchange h => h.cons exchange).mono
            fun log last ⟨⟨hopen, now, hlast⟩, hseen⟩ => ⟨hopen, .inr ⟨seen, now, hseen, ?_⟩⟩
          simp only [Handling.bind, hf]
          exact yields_trans hnext hlast

theorem conforms_ensureLoaded (id : DocId) (s : Session) (hopen : log.accepted? = none) :
    (start (ensureLoaded [id]) s).Conforms (Observes s.store)
      (fun log result => log.accepted? = none ∧
        ((∃ e, result = (.error e, s)) ∨ ∃ seen next, result = (.ok (), next) ∧
          s.Glimpses log id seen ∧ s.Amends next id seen [])) log := by
  rw [start_ensureLoaded]
  split
  · exact ⟨hopen, .inr ⟨_, s, rfl, s.glimpses_getD log id, s.amends_self id⟩⟩
  · rename_i hmissing
    have hnone : s.find? id = none := by simpa [missing, Session.isTracked] using hmissing
    have hall : missing s [id] = [id] := by simp [missing, Session.isTracked, hnone]
    rw [hall]
    refine ⟨⟨hopen, .inr ⟨_, rfl⟩⟩, fun reply => ?_⟩
    cases reply with
    | error e => exact ⟨rfl, .inl ⟨e, rfl⟩⟩
    | ok loaded =>
        cases loaded with
        | nil => exact ⟨rfl, .inr ⟨_, s, rfl, s.glimpses_getD _ id, s.amends_self id⟩⟩
        | cons document rest =>
            exact ⟨rfl, .inr ⟨_, _, rfl, .inr ⟨hnone, Log.reports_of_loads List.mem_cons_self⟩,
              s.amends_track id _⟩⟩

theorem handles_load (α : Type) [Document α] (id : DocId) :
    Handles id (fun _ => .load α id) (load α id) := by
  intro s log hopen
  unfold load
  rw [start_bind]
  refine (conforms_ensureLoaded id s hopen).bind fun log result ⟨hopen, hloaded⟩ => ?_
  rcases hloaded with ⟨e, rfl⟩ | ⟨seen, next, rfl, hseen, hnext⟩
  · exact ⟨hopen, .inl ⟨e, rfl⟩⟩
  · have hview : (next.find? id).elim (.ok none) (Tracked.decode α id) = seen.decode α id := by
      rw [← hnext.self]
      cases next.find? id <;> rfl
    simp only
    rw [start_view, hview]
    exact ⟨hopen, .inr ⟨seen, .origin, hseen, .amended hnext⟩⟩

theorem handles_updateExpiry (id : DocId) (expiresAt : Option Instant) :
    Handles id (fun _ => .updateExpiry expiresAt) (updateExpiry id expiresAt) := by
  intro s log hopen
  unfold updateExpiry
  rw [start_bind]
  refine (conforms_ensureLoaded id s hopen).bind fun log result ⟨hopen, hloaded⟩ => ?_
  rcases hloaded with ⟨e, rfl⟩ | ⟨seen, next, rfl, hseen, hnext⟩
  · exact ⟨hopen, .inl ⟨e, rfl⟩⟩
  · simp only
    rw [start_bind, start_get, Interaction.done_bind]
    have hself := hnext.self
    simp only
    cases hfound : next.find? id with
    | none =>
        rw [hfound, Option.getD_none] at hself
        subst hself
        exact ⟨hopen, .inr ⟨_, .origin, hseen, .amended hnext⟩⟩
    | some t =>
        rw [hfound, Option.getD_some] at hself
        subst hself
        simp only
        cases hpresent : t.isPresent with
        | false =>
            refine ⟨hopen, .inr ⟨t, .origin, hseen, ?_⟩⟩
            simp only [Handling.updateExpiry, hpresent]
            exact .amended hnext
        | true =>
            refine ⟨hopen, .inr ⟨t, .origin, hseen, ?_⟩⟩
            simp only [Handling.updateExpiry, hpresent]
            exact .amended (hnext.track _)

theorem Handles.congr {f g : Instant → Handling α} {work : Work α} (h : Handles id f work)
    (hsame : ∀ now seen, f now seen = g now seen) : Handles id g work := by
  have hfg : f = g := funext fun now => funext fun seen => hsame now seen
  exact hfg ▸ h

theorem handles_loadOrBlank (α : Type) [FindOrCreate α] (id : DocId) :
    Handles id (fun _ => .loadOrBlank α id) (loadOrBlank α id) := by
  refine ((handles_load α id).bind (g := fun found _ seen =>
    (.ok (found.getD FindOrCreate.blank), found.elim
      (seen.hold (Document.encode (FindOrCreate.blank : α))) fun _ => seen, []))
    fun _ found t _ _ => ?_).congr fun now seen => ?_
  · rintro s log hopen rfl
    cases found with
    | some document => exact ⟨hopen, .origin, .amended (s.amends_self id)⟩
    | none => exact ⟨hopen, .origin, .amended ((s.amends_self id).put _)⟩
  unfold Handling.bind Handling.load Handling.loadOrBlank Tracked.fill
  cases seen.decode α id with
  | error e => rfl
  | ok found => cases found <;> rfl

end Work

end Jobyard
