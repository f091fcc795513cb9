import Jobyard.Connection.Job
import Jobyard.Proofs.Queue.Claim
import Jobyard.Proofs.Session.Glimpse

/-!
What connections ask for when they write to a job. A job is created under a fresh text that must not
be taken; its parameters are set under the version that was loaded.
-/

namespace Jobyard

def Job.initial (invocation : InvocationData) (parameters : Dict String String)
    (createdAt : Instant) : Job :=
  { Job.blank with invocation, parameters, createdAt }

def Job.withParameter (j : Job) (name value : String) : Job :=
  { j with parameters := j.parameters.insert name value }

namespace Connection

open JobQueue Work

variable (c : Connection)

theorem start_load_empty (α : Type) [Document α] (store : StoreRef) (id : DocId) :
    start (Work.load α id) (Session.empty store true) =
      .call (.store store (.load [id])) fun reply =>
        match reply with
        | .ok (some d :: _) =>
          .done ((Tracked.ofStored d).decode α id, loadedSession store id d)
        | .ok (none :: _) => .done (.ok none, ⟨store, [(id, .absent)], [], true⟩)
        | .ok [] => .done (.ok none, Session.empty store true)
        | .error e => .done (.error e, Session.empty store true) := by
  unfold Work.load
  rw [start_bind, start_ensureLoaded]
  have hmissing : missing (Session.empty store true) [id] = [id] := rfl
  rw [hmissing, if_neg (by simp), Interaction.call_bind]
  congr 1
  funext reply
  match reply with
  | .error e => rfl
  | .ok [] => rfl
  | .ok (none :: rest) =>
      have hfound : Session.find? ⟨store, [(id, .absent)], [], true⟩ id = some .absent := by
        simp [Session.find?]
      change start (view α id) ⟨store, [(id, .absent)], [], true⟩ = _
      rw [start_view, hfound]
      rfl
  | .ok (some d :: rest) =>
      change start (view α id) (loadedSession store id d) = _
      rw [start_view, find?_loadedSession]
      rfl

theorem start_save_loaded (store : StoreRef) (id : DocId) (d : Stored) {α : Type} [Document α]
    (document : α) :
    start (do
        save id document
        saveChanges) (loadedSession store id d) >>= (fun result => .done result.1) =
      .call (.store store (.commit [.put id (Document.encode document) d.expiresAt
        (.exact d.etag)])) fun reply => .done reply := by
  have hbatch := batch_put_loadedSession store id d (Document.encode document)
  rw [start_bind]
  change start saveChanges ((loadedSession store id d).put id (Document.encode document)) >>= _ = _
  rw [start_saveChanges, hbatch, store_put_loadedSession, if_neg (by simp), Interaction.call_bind]
  congr 1
  funext reply
  cases reply <;> rfl

theorem run_createExpiredJob (invocation : InvocationData) (parameters : Dict String String)
    (createdAt : Instant) (length : Duration) :
    (c.createExpiredJob invocation parameters createdAt length).run =
      .call .freshText fun key =>
        .call (.store c.store (.commit [.put (Document.idFor Job key)
          (Document.encode (Job.initial invocation parameters createdAt))
          (some (createdAt.expiresIn length)) .absent])) fun reply =>
          .done (reply.map fun _ => ⟨key⟩) := by
  change Interaction.call Request.freshText (fun key => (c.alone (do
    Work.save (Document.idFor Job key) (Job.initial invocation parameters createdAt)
    discard (Work.setExpiry (Document.idFor Job key) (createdAt.expiresIn length))
    Work.saveChanges) >>= fun _ => pure ⟨key⟩ : Action JobId).run) = _
  congr 1
  funext key
  let t := Tracked.unasked.hold (Document.encode (Job.initial invocation parameters createdAt))
  let created := (Session.empty c.store true).track (Document.idFor Job key)
    (t.date (some (createdAt.expiresIn length)))
  have hdate : start (discard (Work.setExpiry (Document.idFor Job key)
      (createdAt.expiresIn length))) ((Session.empty c.store true).put (Document.idFor Job key)
        (Document.encode (Job.initial invocation parameters createdAt))) =
      .done (.ok (), created) := by
    rw [start_discard, Session.put_eq_track]
    exact congrArg (· >>= _) (start_updateExpiry_track (t := t) rfl _)
  have hbatch : created.batch = [.put (Document.idFor Job key)
      (Document.encode (Job.initial invocation parameters createdAt))
      (some (createdAt.expiresIn length)) .absent] := rfl
  change (start (do
    Work.save (Document.idFor Job key) (Job.initial invocation parameters createdAt)
    discard (Work.setExpiry (Document.idFor Job key) (createdAt.expiresIn length))
    Work.saveChanges) (Session.empty c.store true) >>= fun result => .done result.1) >>= _ = _
  rw [start_bind]
  change (start (discard (Work.setExpiry _ _) >>= fun _ => saveChanges) _ >>= _) >>= _ = _
  rw [start_bind, hdate, Interaction.done_bind]
  change (start saveChanges created >>= _) >>= _ = _
  rw [start_saveChanges, hbatch, if_neg (by simp), Interaction.call_bind, Interaction.call_bind]
  congr 1
  funext reply
  cases reply <;> rfl

theorem run_setJobParameter (job : JobId) (name value : String) :
    (c.setJobParameter job name value).run =
      .call (.store c.store (.load [Step.jobDocument job])) fun reply =>
        match reply with
        | .ok (some d :: _) =>
          match (Document.decode? d.body : Option Job) with
          | none => .done (.error (.document (Step.jobDocument job) .shape))
          | some j =>
            .call (.store c.store (.commit [.put (Step.jobDocument job)
              (Document.encode (j.withParameter name value)) d.expiresAt (.exact d.etag)]))
              fun reply => .done reply
        | .ok _ => .done (.error (.missing (Step.jobDocument job)))
        | .error e => .done (.error e) := by
  unfold setJobParameter alone
  rw [run_alone, start_bind, start_load_empty]
  simp only [Interaction.call_bind]
  congr 1
  funext reply
  match reply with
  | .error e => rfl
  | .ok [] => rfl
  | .ok (none :: rest) => rfl
  | .ok (some d :: rest) =>
      unfold Tracked.decode
      simp only [Tracked.ofStored]
      cases (Document.decode? d.body : Option Job) with
      | none => rfl
      | some j => exact start_save_loaded c.store _ d (j.withParameter name value)

end Connection

end Jobyard
