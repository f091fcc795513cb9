import Jobyard.Proofs.Program.Conduct
import Jobyard.Queue.Lease

/-!
The conduct of leases. Whatever its store answers, the resolution of a lease makes no more than one
write, on the entry of the lease, under a version that was loaded with the stamp of the lease.
-/

namespace Jobyard.Lease

structure Owns (l : Lease) (log : Log) (d : Stored) (entry : QueueEntry) : Prop where
  loaded : ∃ exchange ∈ log, exchange.Loads l.store l.entryId d
  decoded : Document.decode? d.body = some entry
  stamp : entry.fetchedAt = l.claimedAt

def Resolves (l : Lease) (write : Stored → QueueEntry → Write) (log : Log) : Request → Prop
  | .store target (.load _) => target = l.store
  | .store target (.commit batch) =>
    target = l.store ∧ ∃ d entry, l.Owns log d entry ∧ batch = [write d entry]
  | _ => False

def removal (l : Lease) (d : Stored) (_ : QueueEntry) : Write :=
  .delete l.entryId (.exact d.etag)

def returned (l : Lease) (d : Stored) (entry : QueueEntry) : Write :=
  .put l.entryId (Document.encode { entry with fetchedAt := none }) d.expiresAt (.exact d.etag)

variable {l : Lease} {write : Stored → QueueEntry → Write} {log : Log}

theorem conforms_ownedEntry :
    (l.ownedEntry).run.Conforms (l.Resolves write)
      (fun log result => ∀ d entry, result = .ok (some (d, entry)) → l.Owns log d entry) log := by
  refine ⟨rfl, fun reply => ?_⟩
  match reply with
  | .error e => exact fun _ _ h => nomatch h
  | .ok [] => exact fun _ _ h => nomatch h
  | .ok (none :: _) => exact fun _ _ h => nomatch h
  | .ok (some d :: rest) =>
      change Program.Conforms _ _ _ ((ExceptT.mk (pure (d.decode QueueEntry)) >>= fun entry =>
        if entry.fetchedAt = l.claimedAt then pure (some (d, entry)) else pure none :
          Action (Option (Stored × QueueEntry))).run)
      cases hdecode : (d.decode QueueEntry : Except StoreError QueueEntry) with
      | error e => exact fun _ _ h => nomatch h
      | ok entry =>
          change Program.Conforms _ _ _ (ExceptT.run (if entry.fetchedAt = l.claimedAt then
            pure (some (d, entry)) else pure none : Action (Option (Stored × QueueEntry))))
          split
          · rename_i hstamp
            intro other found h
            cases h
            refine ⟨⟨_, List.mem_cons_self, rfl, List.mem_cons_self⟩, ?_, hstamp⟩
            unfold Stored.decode at hdecode
            split at hdecode
            · rename_i hdecoded
              cases hdecode
              exact hdecoded
            · cases hdecode
          · exact fun _ _ h => nomatch h

theorem conforms_commitOwned {d : Stored} {entry : QueueEntry} (howns : l.Owns log d entry) :
    (l.commitOwned (write d entry)).run.Conforms (l.Resolves write) (fun _ _ => True) log := by
  refine ⟨⟨rfl, d, entry, howns, rfl⟩, fun reply => ?_⟩
  cases reply <;> trivial

theorem conforms_requeue :
    (l.requeue).run.Conforms (l.Resolves l.returned) (fun _ _ => True) log := by
  refine conforms_ownedEntry.bind_action (fun log found hmiddle => ?_) fun _ _ _ => trivial
  match found with
  | none => trivial
  | some (d, entry) => exact conforms_commitOwned (hmiddle d entry rfl)

theorem conforms_acknowledge :
    (l.acknowledge).run.Conforms (l.Resolves l.removal) (fun _ _ => True) log := by
  refine conforms_ownedEntry.bind_action (fun log found hmiddle => ?_) fun _ _ _ => trivial
  match found with
  | none => trivial
  | some (d, entry) =>
      have hcommit : (l.commitOwned (l.removal d entry)).run.Conforms (l.Resolves l.removal)
          (fun _ _ => True) log := conforms_commitOwned (hmiddle d entry rfl)
      have hdiscard : (discard (l.commitOwned (l.removal d entry)) : Action PUnit).run.Conforms
          (l.Resolves l.removal) (fun _ _ => True) log :=
        hcommit.bind_action (fun _ _ _ => trivial) fun _ _ _ => trivial
      exact hdiscard.bind_action (fun _ _ _ => trivial) fun _ _ _ => trivial

theorem conforms_abandon :
    (l.abandon).run.Conforms (l.Resolves l.returned) (fun _ _ => True) log := by
  have hdiscard : (discard l.requeue : Action PUnit).run.Conforms (l.Resolves l.returned)
      (fun _ _ => True) log :=
    conforms_requeue.bind_action (fun _ _ _ => trivial) fun _ _ _ => trivial
  exact hdiscard.bind_action (fun _ _ _ => trivial) fun _ _ _ => trivial

theorem conforms_drop :
    (l.drop).Conforms (l.Resolves l.returned) (fun _ _ => True) log := by
  unfold drop
  split
  · trivial
  · exact Program.Conforms.bind conforms_requeue fun _ _ _ => trivial

end Jobyard.Lease
