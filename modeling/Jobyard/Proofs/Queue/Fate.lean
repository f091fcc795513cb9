import Jobyard.Proofs.Queue.Effect
import Jobyard.Proofs.Queue.Entry

/-!
What becomes of one entry in one turn: it is created, rewritten with another stamp, removed, or
kept. From this follows that a sound floor stays sound.
-/

namespace Jobyard.Simulation

namespace Change

def added : Option Change → List (DocId × QueueEntry)
  | some (.created entries) => entries
  | _ => []

/-- The stamp that a change puts on an entry, if it does; a requeued entry has an empty one. -/
def stamp? (id : DocId) : Option Change → Option (Option Instant)
  | some (.claimed lease _) => if lease.entryId = id then some lease.claimedAt else none
  | some (.requeued l) => if l.entryId = id then some none else none
  | _ => none

def Removes (change : Option Change) (id : DocId) : Prop :=
  ∃ l, change = some (.removed l) ∧ l.entryId = id

end Change

open Change

theorem exists_of_mem_added {change : Option Change} {created : DocId × QueueEntry}
    (h : created ∈ added change) :
    ∃ entries, change = some (.created entries) ∧ created ∈ entries := by
  match change with
  | none => cases h
  | some (.created entries) => exact ⟨entries, rfl, h⟩
  | some (.claimed _ _) => cases h
  | some (.requeued _) => cases h
  | some (.removed _) => cases h

inductive Fate (m next : Memory) (change : Option Change) (id : DocId) : Prop
  | kept (hsame : next.find? id = m.find? id) (hstamp : stamp? id change = none)
      (hadded : id ∉ (added change).map (·.1)) (hremoves : ¬ Removes change id)
  | created (entry : QueueEntry) (d : Stored) (hnew : m.find? id = none)
      (hfound : next.find? id = some d) (hbody : d.body = Document.encode entry)
      (hexpiry : d.expiresAt = none) (hstamp : stamp? id change = none)
      (hadded : (id, entry) ∈ added change) (hremoves : ¬ Removes change id)
  | rewritten (d : Stored) (entry : QueueEntry) (stamp : Option Instant)
      (hholds : Holds m id d entry)
      (hfound : next.find? id = some (rewritten d { entry with fetchedAt := stamp }))
      (hstamp : stamp? id change = some stamp) (hadded : added change = [])
      (hremoves : ¬ Removes change id)
  | removed (d : Stored) (entry : QueueEntry) (hholds : Holds m id d entry)
      (hgone : next.find? id = none) (hstamp : stamp? id change = none)
      (hadded : added change = []) (hremoves : Removes change id)

theorem Effect.fate {m next : Memory} {change : Option Change} (heffect : Effect m next change)
    {id : DocId} (hentry : IsEntry id) : Fate m next change id := by
  match change with
  | none => exact .kept (heffect id hentry) rfl (fun h => nomatch h) (fun ⟨_, h, _⟩ => nomatch h)
  | some (.created entries) =>
      obtain ⟨_, hcreated, hkept⟩ := heffect
      by_cases hid : id ∈ entries.map (·.1)
      · obtain ⟨created, hmem, rfl⟩ := List.mem_map.mp hid
        obtain ⟨_, hnew, d, hfound, hbody, hexpiry⟩ := hcreated created hmem
        exact .created created.2 d hnew hfound hbody hexpiry rfl hmem fun ⟨_, h, _⟩ => nomatch h
      · exact .kept (hkept id hentry hid) rfl hid fun ⟨_, h, _⟩ => nomatch h
  | some (.claimed lease timeout) =>
      obtain ⟨_, ⟨d, entry, now, hholds, _, hclaimed, hfound⟩, hothers⟩ := heffect
      by_cases hid : lease.entryId = id
      · subst hid
        refine .rewritten d entry (some now) hholds hfound ?_ rfl fun ⟨_, h, _⟩ => nomatch h
        rw [stamp?, if_pos rfl, hclaimed]
      · exact .kept (hothers id (Ne.symm hid)) (if_neg hid) (fun h => nomatch h)
          fun ⟨_, h, _⟩ => nomatch h
  | some (.requeued l) =>
      obtain ⟨hrequeued, hothers⟩ := heffect
      by_cases hid : l.entryId = id
      · subst hid
        obtain ⟨d, entry, hholds, _, hfound⟩ := hrequeued hentry
        exact .rewritten d entry none hholds hfound (if_pos rfl) rfl fun ⟨_, h, _⟩ => nomatch h
      · exact .kept (hothers id (Ne.symm hid)) (if_neg hid) (fun h => nomatch h)
          fun ⟨_, h, _⟩ => nomatch h
  | some (.removed l) =>
      obtain ⟨hremoved, hothers⟩ := heffect
      by_cases hid : l.entryId = id
      · subst hid
        obtain ⟨d, entry, hholds, _, hgone⟩ := hremoved hentry
        exact .removed d entry hholds hgone rfl rfl ⟨l, rfl, rfl⟩
      · refine .kept (hothers id (Ne.symm hid)) rfl (fun h => nomatch h) ?_
        rintro ⟨other, heq, hother⟩
        cases heq
        exact hid hother

namespace Floor

open Yard (Published)

variable {store : StoreRef} {y last : Floor} {event : Event Task Outcome}

/-- Entries are created under texts that a program drew for itself, by its first write. -/
theorem published_of_added (hsound : Sound store y)
    (hstep : Yard.Step Task.program (Task.At store) y event last) {id : DocId} {entry : QueueEntry}
    (hadded : (id, entry) ∈ added event.change?) : ¬ Published y id ∧ Published last id := by
  cases hstep with
  | began n task hfree hadmits => cases hadded
  | clocked time => cases hadded
  | proceeded n task log request next reply w hthread hreacts =>
      obtain ⟨_, hallowed, _⟩ := hsound.orderly n _ hthread
      have hlog := Yard.logAt_of_threads hthread
      obtain ⟨entries, hchange, hmem⟩ := exists_of_mem_added hadded
      obtain ⟨hlanded, hentries, hproducer⟩ := Thread.change?_created hchange
      have hproduces := hproducer store log request hallowed
      rw [hentries] at hmem
      have haccepted : (Exchange.accepted? ⟨request, reply⟩).isSome = true := hlanded
      obtain ⟨batch, hbatch⟩ := Option.isSome_iff_exists.mp haccepted
      obtain ⟨target, rfl, _⟩ := World.commit_of_accepted hsound.calm hreacts hbatch
      obtain ⟨key, hkey, hid⟩ := mem_keys_entered (List.mem_map.mpr ⟨_, hmem, rfl⟩)
      have hdrawn : id.key ∈ log.drawn := by
        rw [Log.drawn_of_ne_freshText (by simp)] at hkey
        rw [show id = Document.idFor QueueEntry key from hid]
        exact List.mem_reverse.mp hkey
      constructor
      · rintro ⟨k, hk, hcommitted⟩
        have hkn : k = n := hsound.apart.apart k n _ hk (hlog ▸ hdrawn)
        subst hkn
        rw [hlog] at hcommitted
        exact hproduces.2.1 hcommitted
      · refine ⟨n, ?_, ?_⟩
        · rw [Yard.logAt_seat_self, Log.drawn_of_ne_freshText (by simp)]
          exact hdrawn
        · rw [Yard.logAt_seat_self]
          exact ⟨_, List.mem_cons_self, haccepted⟩

theorem dates_of_fate {m next : Memory} {change : Option Change} {id : DocId} {d : Stored}
    (hfate : Fate m next change id) (hadded : id ∉ (added change).map (·.1))
    (hdates : m.Dates id d) : next.Dates id d := by
  intro current hcurrent
  cases hfate with
  | kept hsame => exact hdates current (hsame.symm.trans hcurrent)
  | created entry found hnew hfound hbody hexpiry hstamp hmem =>
      exact absurd (List.mem_map.mpr ⟨_, hmem, rfl⟩) hadded
  | rewritten found entry stamp hholds hfound =>
      rw [hfound] at hcurrent
      cases hcurrent
      left
      change d.etag < found.etag + 1
      rcases hdates found hholds.1 with hlt | heq
      · omega
      · rw [heq]
        omega
  | removed found entry hholds hgone =>
      rw [hgone] at hcurrent
      cases hcurrent

theorem Sound.entries_step (hsound : Sound store y)
    (hstep : Yard.Step Task.program (Task.At store) y event last) {id : DocId} {d : Stored}
    (hentry : IsEntry id) (hfound : (last.world.memory store).find? id = some d) :
    d.expiresAt = none ∧ (∃ entry : QueueEntry, Document.decode? d.body = some entry) ∧
      Published last id := by
  cases (effect_of_step hsound hstep).fate hentry with
  | kept hsame =>
      obtain ⟨hexpiry, hdecoded, hpublished⟩ :=
        hsound.entries id d hentry (hsame.symm.trans hfound)
      exact ⟨hexpiry, hdecoded, hpublished.step hstep⟩
  | created entry other hnew hother hbody hexpiry hstamp hmem =>
      rw [hother] at hfound
      cases hfound
      refine ⟨hexpiry, ⟨entry, ?_⟩, (published_of_added hsound hstep hmem).2⟩
      rw [hbody]
      exact entry.decode?_encode
  | rewritten other entry stamp hholds hother =>
      rw [hother] at hfound
      cases hfound
      obtain ⟨hexpiry, _, hpublished⟩ := hsound.entries id other hentry hholds.1
      exact ⟨hexpiry, ⟨_, QueueEntry.decode?_encode _⟩, hpublished.step hstep⟩
  | removed other entry hholds hgone =>
      rw [hgone] at hfound
      cases hfound

theorem Sound.loads_step (hsound : Sound store y)
    (hstep : Yard.Step Task.program (Task.At store) y event last) {n : Nat} {exchange : Exchange}
    (hmem : exchange ∈ last.logAt n) {id : DocId} {d : Stored} (hentry : IsEntry id)
    (hloads : exchange.Loads store id d) :
    Published last id ∧ (last.world.memory store).Dates id d := by
  rcases hstep.logAt_cases hmem with hearlier | ⟨request, reply, rfl, hreacts⟩
  · obtain ⟨hpublished, hdates⟩ := hsound.loads n exchange hearlier id d hentry hloads
    -- An identifier that was published is not created again, so its version cannot start anew.
    have hunadded : id ∉ (added event.change?).map (·.1) := by
      intro hadded
      obtain ⟨created, hcreated, rfl⟩ := List.mem_map.mp hadded
      exact (published_of_added hsound hstep hcreated).1 hpublished
    exact ⟨hpublished.step hstep,
      dates_of_fate ((effect_of_step hsound hstep).fate hentry) hunadded hdates⟩
  · obtain ⟨hfound, hsame⟩ := World.find?_of_loads hsound.calm hreacts hloads
    rw [← hsame] at hfound
    refine ⟨(hsound.entries_step hstep hentry hfound).2.2, fun current hcurrent => .inr ?_⟩
    exact Option.some.inj (hfound.symm.trans hcurrent)

theorem Sound.step (hsound : Sound store y)
    (hstep : Yard.Step Task.program (Task.At store) y event last) : Sound store last where
  calm := hstep.calm hsound.calm
  keyed := hstep.keyed hsound.calm hsound.keyed
  orderly := hsound.orderly.step (fun _ hat => Task.conforms hat) hstep
  apart := hsound.apart.step hsound.calm hstep
  entries _ _ hentry hfound := hsound.entries_step hstep hentry hfound
  loads _ _ hmem _ _ hentry hloads := hsound.loads_step hstep hmem hentry hloads
  finds n exchange hmem id hfinds := by
    rcases hstep.logAt_cases hmem with hearlier | ⟨request, reply, rfl, hreacts⟩
    · exact hsound.finds n exchange hearlier id hfinds
    · exact World.collection_of_finds hsound.calm hsound.keyed hreacts hfinds

end Floor

end Jobyard.Simulation
