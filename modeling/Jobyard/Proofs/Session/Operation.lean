import Jobyard.Proofs.Session.Learned

/-!
The operations of a session as data, and what each of them does at most: ask the store once, and
learn from the answer.
-/

namespace Jobyard

inductive SessionOp : Type 1
  | load (α : Type) [Document α] (id : DocId)
  | loadMany (α : Type) [Document α] (ids : List DocId)
  | loadOrBlank (α : Type) [FindOrCreate α] (id : DocId)
  | query (α : Type) [Document α] (q : Query)
  | count (q : Query)
  | save (α : Type) [Document α] (id : DocId) (document : α)
  | delete (id : DocId)
  | expiry (id : DocId)
  | updateExpiry (id : DocId) (expiresAt : Option Instant)
  | defer (w : Write)
  | saveChanges

def SessionOp.work : SessionOp → Work Unit
  | load α id => discard (Work.load α id)
  | loadMany α ids => discard (Work.loadMany α ids)
  | loadOrBlank α id => discard (Work.loadOrBlank α id)
  | query α q => discard (Work.query α q)
  | count q => discard (Work.count q)
  | save _ id document => Work.save id document
  | delete id => Work.delete id
  | expiry id => discard (Work.expiry id)
  | updateExpiry id expiresAt => discard (Work.updateExpiry id expiresAt)
  | defer w => modify fun s => s.defer w
  | saveChanges => Work.saveChanges

namespace Work

open Session

variable {α β : Type} {log : Log}

/-- Work that asks for nothing and learns nothing beyond a log. -/
def Silent (log : Log) (work : Work α) : Prop :=
  ∀ s, ∃ result, work.start s = .done result ∧ Learned log s result.2 ∧ result.2.store = s.store

theorem silent_pure (value : α) : Silent log (pure value : Work α) :=
  fun s => ⟨_, rfl, learned_refl log s, rfl⟩

theorem silent_modify (f : Session → Session) (hlearned : ∀ s, Learned log s (f s))
    (hstore : ∀ s, (f s).store = s.store) : Silent log (modify f) :=
  fun s => ⟨_, rfl, hlearned s, hstore s⟩

theorem silent_view (α : Type) [Document α] (id : DocId) : Silent log (view α id) :=
  fun s => ⟨_, start_view α id s, learned_refl log s, rfl⟩

theorem Silent.bind {work : Work α} {f : α → Work β} (hwork : Silent log work)
    (hf : ∀ value, Silent log (f value)) : Silent log (work >>= f) := by
  intro s
  obtain ⟨⟨result, next⟩, hstart, hlearned, hstore⟩ := hwork s
  rw [start_bind, hstart, Interaction.done_bind]
  cases result with
  | error e => exact ⟨_, rfl, hlearned, hstore⟩
  | ok value =>
      obtain ⟨last, hlast, hmore, hsame⟩ := hf value next
      exact ⟨last, hlast, hlearned.trans hmore, hsame.trans hstore⟩

theorem silent_save [Document α] (id : DocId) (document : α) : Silent log (save id document) :=
  silent_modify _ (fun s => learned_put log s id _) fun s => store_put s id _

theorem silent_delete (id : DocId) : Silent log (delete id) :=
  silent_modify _ (fun s => learned_delete log s id) fun s => store_delete s id

theorem silent_mapM (f : α → Work β) (hf : ∀ a, Silent log (f a)) (items : List α) :
    Silent log (items.mapM f) := by
  induction items with
  | nil => exact silent_pure []
  | cons first rest ih =>
      rw [List.mapM_cons]
      exact (hf first).bind fun value => ih.bind fun values => silent_pure _

theorem silent_gather (α : Type) [Document α] (found : List Stored)
    (hshown : ∀ d ∈ found, ∃ exchange ∈ log, exchange.Shows d.id d.etag) :
    Silent log (gather α found) := by
  induction found with
  | nil => exact silent_pure []
  | cons d rest ih =>
      have hobserve : Silent log (modify fun s => s.observe d : Work Unit) :=
        silent_modify _ (fun s => learned_observe s d (hshown d List.mem_cons_self))
          fun s => store_observe s d
      have hrest : Silent log (gather α rest) :=
        ih fun other hother => hshown other (List.mem_cons_of_mem d hother)
      refine hobserve.bind fun _ => ?_
      refine (silent_view α d.id).bind fun seen => hrest.bind fun others => ?_
      cases seen with
      | none => exact silent_pure others
      | some document => exact silent_pure _

def OneCall (store : StoreRef) (log : Log) (request : Request) : Prop :=
  log = [] ∧ ∃ call, request = .store store call

def AsksOnce (work : Work α) : Prop :=
  ∀ s, Program.Conforms (OneCall s.store)
    (fun log result => Learned log s result.2 ∧ result.2.store = s.store) [] (work.start s)

theorem asksOnce_of_silent {work : Work α} (hwork : ∀ log, Silent log work) : AsksOnce work := by
  intro s
  obtain ⟨result, hstart, hend⟩ := hwork [] s
  rw [hstart]
  exact hend

theorem AsksOnce.bind {work : Work α} {f : α → Work β} (hwork : AsksOnce work)
    (hf : ∀ log value, Silent log (f value)) : AsksOnce (work >>= f) := by
  intro s
  rw [start_bind]
  refine (hwork s).bind fun log result hmiddle => ?_
  obtain ⟨value, next⟩ := result
  obtain ⟨hlearned, hstore⟩ := hmiddle
  cases value with
  | error e => exact ⟨hlearned, hstore⟩
  | ok value =>
      obtain ⟨last, hlast, hmore, hsame⟩ := hf log value next
      change Program.Conforms _ _ log ((f value).start next)
      rw [hlast]
      exact ⟨hlearned.trans hmore, hsame.trans hstore⟩

theorem AsksOnce.discard {work : Work α} (hwork : AsksOnce work) :
    AsksOnce (discard work) :=
  hwork.bind fun _ _ => silent_pure ()

theorem asksOnce_askStore (call : StoreCall) : AsksOnce (askStore call) := by
  intro s
  rw [start_askStore]
  exact ⟨⟨rfl, call, rfl⟩, fun reply => ⟨learned_refl _ s, rfl⟩⟩

theorem asksOnce_ensureLoaded (ids : List DocId) : AsksOnce (ensureLoaded ids) := by
  intro s
  rw [start_ensureLoaded]
  split
  · exact ⟨learned_refl [] s, rfl⟩
  · refine ⟨⟨rfl, _, rfl⟩, fun reply => ?_⟩
    cases reply with
    | error e => exact ⟨learned_refl _ s, rfl⟩
    | ok loaded =>
        refine ⟨learned_absorb s _ ?_, store_absorb s _⟩
        intro id d hmem
        exact ⟨_, List.mem_singleton_self _, d, hmem, rfl⟩

theorem asksOnce_load (α : Type) [Document α] (id : DocId) : AsksOnce (load α id) :=
  (asksOnce_ensureLoaded [id]).bind fun _ _ => silent_view α id

theorem asksOnce_loadOrBlank (α : Type) [FindOrCreate α] (id : DocId) :
    AsksOnce (loadOrBlank α id) := by
  refine (asksOnce_load α id).bind fun log found => ?_
  cases found with
  | some document => exact silent_pure document
  | none => exact (silent_save id _).bind fun _ => silent_pure _

theorem asksOnce_query (α : Type) [Document α] (q : Query) : AsksOnce (query α q) := by
  intro s
  unfold query
  rw [start_bind, start_askStore, Interaction.call_bind]
  refine ⟨⟨rfl, _, rfl⟩, fun reply => ?_⟩
  cases reply with
  | error e => exact ⟨learned_refl _ s, rfl⟩
  | ok found =>
      have hsilent : Silent [⟨.store s.store (.query q), .ok found⟩] (gather α found) :=
        silent_gather α found fun d hd => ⟨_, List.mem_singleton_self _, d, hd, rfl, rfl⟩
      obtain ⟨result, hstart, hend⟩ := hsilent s
      change Program.Conforms _ _ _ ((gather α found).start s)
      rw [hstart]
      exact hend

theorem silent_expiry (id : DocId) :
    Silent log (do
      match (← get).find? id with
      | some t => pure (if t.isPresent then t.expiresAt else none)
      | none => pure none : Work (Option Instant)) := by
  intro s
  rw [start_bind, start_get, Interaction.done_bind]
  simp only
  split <;> exact ⟨_, rfl, learned_refl log s, rfl⟩

theorem silent_changeExpiry (id : DocId) (expiresAt : Option Instant) :
    Silent log (do
      match (← get).find? id with
      | some t =>
        if t.isPresent then
          modify fun s => s.track id { t with expiresAt, status := .dirty }
          pure true
        else pure false
      | none => pure false : Work Bool) := by
  intro s
  rw [start_bind, start_get, Interaction.done_bind]
  simp only
  split
  · rename_i t ht
    split
    · exact ⟨_, rfl, learned_track id _ fun etag hetag => .inl ⟨t, ht, hetag⟩, rfl⟩
    · exact ⟨_, rfl, learned_refl log s, rfl⟩
  · exact ⟨_, rfl, learned_refl log s, rfl⟩

theorem asksOnce_saveChanges : AsksOnce saveChanges := by
  intro s
  rw [start_saveChanges]
  split
  · exact ⟨learned_refl [] s, rfl⟩
  · refine ⟨⟨rfl, _, rfl⟩, fun reply => ?_⟩
    cases reply with
    | error e => exact ⟨learned_refl _ s, rfl⟩
    | ok _ => exact ⟨learned_cleared _ s, rfl⟩

end Work

theorem SessionOp.asksOnce (op : SessionOp) : op.work.AsksOnce := by
  cases op with
  | load α id => exact (Work.asksOnce_load α id).discard
  | loadMany α ids =>
      refine Work.AsksOnce.discard ((Work.asksOnce_ensureLoaded ids).bind fun log _ => ?_)
      exact Work.silent_mapM _ (Work.silent_view α) ids
  | loadOrBlank α id => exact (Work.asksOnce_loadOrBlank α id).discard
  | query α q => exact (Work.asksOnce_query α q).discard
  | count q => exact (Work.asksOnce_askStore (.count q)).discard
  | save α id document => exact Work.asksOnce_of_silent fun log => Work.silent_save id document
  | delete id => exact Work.asksOnce_of_silent fun log => Work.silent_delete id
  | expiry id =>
      exact ((Work.asksOnce_ensureLoaded [id]).bind fun log _ => Work.silent_expiry id).discard
  | updateExpiry id expiresAt =>
      exact ((Work.asksOnce_ensureLoaded [id]).bind fun log _ =>
        Work.silent_changeExpiry id expiresAt).discard
  | defer w =>
      exact Work.asksOnce_of_silent fun log =>
        Work.silent_modify _ (fun s => Session.learned_refl log s) fun _ => rfl
  | saveChanges => exact Work.asksOnce_saveChanges

end Jobyard
