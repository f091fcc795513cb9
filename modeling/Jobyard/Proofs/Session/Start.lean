import Jobyard.Session.Work

/-!
Work as the program that it is in a given session. The equations here say what each of the building
blocks asks of the world and what it leaves of the session.
-/

namespace Jobyard.Work

variable {α β : Type}

/-- Work done in a session: a program that ends with a result and the session afterwards. -/
def start (work : Work α) (s : Session) : Program (Except StoreError α × Session) :=
  (work.run).run s

theorem start_bind (work : Work α) (f : α → Work β) (s : Session) :
    start (work >>= f) s = start work s >>= fun result =>
      match result.1 with
      | .ok value => (f value).start result.2
      | .error e => .done (.error e, result.2) := by
  change (start work s >>= fun result => (ExceptT.bindCont f result.1).run result.2) = _
  congr 1
  funext ⟨result, s⟩
  cases result <;> rfl

@[simp] theorem start_get (s : Session) : start get s = .done (.ok s, s) := rfl

@[simp] theorem start_modify (f : Session → Session) (s : Session) :
    start (modify f) s = .done (.ok (), f s) := rfl

theorem start_tryCatch (work : Work α) (handle : StoreError → Work α) (s : Session) :
    start (tryCatch work handle) s = start work s >>= fun result =>
      match result.1 with
      | .ok value => .done (.ok value, result.2)
      | .error e => (handle e).start result.2 := by
  change (start work s >>= fun result => _) = _
  congr 1
  funext ⟨result, s⟩
  cases result <;> rfl

theorem start_lift (p : Program α) (s : Session) :
    start (lift p) s = p >>= fun value => .done (.ok value, s) := by
  change ((p >>= fun value => Interaction.done (value, s)) >>= fun result : α × Session =>
    Interaction.done (Except.ok result.1, result.2)) = _
  rw [Interaction.bind_bind]
  rfl

theorem start_askStore (call : StoreCall) (s : Session) :
    start (askStore call) s = .call (.store s.store call) fun reply => .done (reply, s) := rfl

theorem start_now (s : Session) :
    start now s = .call .now fun time => .done (.ok time, s) := rfl

def missing (s : Session) (ids : List DocId) : List DocId := ids.filter fun id => !s.isTracked id

theorem start_ensureLoaded (ids : List DocId) (s : Session) :
    start (ensureLoaded ids) s =
      if (missing s ids).isEmpty then .done (.ok (), s)
      else .call (.store s.store (.load (missing s ids))) fun reply =>
        match reply with
        | .ok loaded => .done (.ok (), s.absorb ((missing s ids).zip loaded))
        | .error e => .done (.error e, s) := by
  unfold ensureLoaded
  rw [start_bind, start_get]
  change (if (missing s ids).isEmpty then _ else _ : Work Unit).start s = _
  split
  · rfl
  · rw [start_bind, start_askStore, Interaction.call_bind]
    congr 1
    funext reply
    cases reply <;> rfl

theorem start_view (α : Type) [Document α] (id : DocId) (s : Session) :
    start (view α id) s =
      .done ((s.find? id).elim (.ok none) (·.decode α id), s) := by
  unfold view
  rw [start_bind, start_get]
  simp only [Interaction.done_bind]
  cases s.find? id <;> rfl

theorem start_gather (α : Type) [Document α] (found : List Stored) (s : Session) :
    ∃ result next, start (gather α found) s = .done (result, next) ∧
      ∀ gathered, result = .ok gathered → ∀ entry ∈ gathered, ∃ d ∈ found, d.id = entry.1 := by
  induction found generalizing s with
  | nil =>
      refine ⟨.ok [], s, rfl, ?_⟩
      intro gathered h entry hmem
      cases h
      cases hmem
  | cons d rest ih =>
      unfold gather
      rw [start_bind, start_modify]
      simp only [Interaction.done_bind]
      rw [start_bind, start_view]
      simp only [Interaction.done_bind]
      cases (((s.observe d).find? d.id).elim (.ok none) (Tracked.decode α d.id) :
          Except StoreError (Option α)) with
      | error e => exact ⟨.error e, _, rfl, fun _ h => nomatch h⟩
      | ok seen =>
          obtain ⟨result, next, hstart, hgathered⟩ := ih (s.observe d)
          simp only
          rw [start_bind, hstart]
          simp only [Interaction.done_bind]
          cases result with
          | error e => exact ⟨.error e, _, rfl, fun _ h => nomatch h⟩
          | ok others =>
              have hothers : ∀ entry ∈ others, ∃ other ∈ d :: rest, other.id = entry.1 := by
                intro entry hmem
                obtain ⟨other, hother, hid⟩ := hgathered others rfl entry hmem
                exact ⟨other, List.mem_cons_of_mem d hother, hid⟩
              cases seen with
              | none =>
                  refine ⟨.ok others, next, rfl, ?_⟩
                  intro gathered h
                  cases h
                  exact hothers
              | some document =>
                  refine ⟨.ok ((d.id, document) :: others), next, rfl, ?_⟩
                  intro gathered h entry hmem
                  cases h
                  rcases List.mem_cons.mp hmem with hfirst | hrest
                  · rw [hfirst]
                    exact ⟨d, List.mem_cons_self, rfl⟩
                  · exact hothers entry hrest

theorem start_saveChanges (s : Session) :
    start saveChanges s =
      if s.batch.isEmpty then .done (.ok (), s)
      else .call (.store s.store (.commit s.batch)) fun reply =>
        match reply with
        | .ok () => .done (.ok (), s.cleared)
        | .error e => .done (.error e, s) := by
  unfold saveChanges
  rw [start_bind, start_get]
  change (if s.batch.isEmpty then _ else _ : Work Unit).start s = _
  split
  · rfl
  · rw [start_bind, start_askStore, Interaction.call_bind]
    congr 1
    funext reply
    cases reply <;> rfl

theorem run_alone (store : StoreRef) (work : Work α) :
    (alone store work).run =
      start work (Session.empty store true) >>= fun result => .done result.1 :=
  rfl

end Jobyard.Work
