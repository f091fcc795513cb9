import Jobyard.Proofs.Session.Renewal
import Jobyard.Proofs.Session.Touch
import Jobyard.Proofs.Store.Recall

/-!
Reads of one session while its store moves on. Until it saves, a session reads what it wrote last
and, where it wrote nothing, what it saw first.
-/

namespace Jobyard

namespace Simulation.Desk

variable {store : StoreRef} {d : Desk} {n : Nat}

def Begins (d : Desk) (n : Nat) : Deed → Prop
  | .opened k _ => k = n
  | .worked k op => k = n ∧ op.Sends d.world (d.sessions n)
  | _ => False

def Continues (store : StoreRef) (n : Nat) (d : Desk) : List Deed → Prop
  | [] => True
  | deed :: rest => ¬ d.Begins n deed ∧ (d.act store deed).Continues store n rest

def writes? (d : Desk) (n : Nat) (id : DocId) : Deed → Option (Option Json)
  | .worked k op => if k = n then op.writes? d.world (d.sessions n) id else none
  | _ => none

def sees? (store : StoreRef) (d : Desk) (n : Nat) (id : DocId) : Deed → Option (Option Json)
  | .worked k op =>
    if k = n ∧ id ∈ op.looks d.world (d.sessions n) then some ((d.world.memory store).body? id)
    else none
  | _ => none

/-- What a session wrote last of a document, none where it deleted it. -/
def lastWritten? (store : StoreRef) (n : Nat) (id : DocId) (d : Desk) :
    List Deed → Option (Option Json)
  | [] => none
  | deed :: rest => ((d.act store deed).lastWritten? store n id rest).or (d.writes? n id deed)

def firstSeen? (store : StoreRef) (n : Nat) (id : DocId) (d : Desk) :
    List Deed → Option (Option Json)
  | [] => none
  | deed :: rest => (d.sees? store n id deed).or ((d.act store deed).firstSeen? store n id rest)

theorem held?_act (hsound : d.Sound store) {deed : Deed} (hunit : ¬ d.Begins n deed)
    (id : DocId) :
    ((d.act store deed).sessions n).held? id =
      (d.writes? n id deed).or (((d.sessions n).held? id).or (d.sees? store n id deed)) := by
  have hspared : deed.Spares n → d.writes? n id deed = none → d.sees? store n id deed = none →
      ((d.act store deed).sessions n).held? id =
        (d.writes? n id deed).or (((d.sessions n).held? id).or (d.sees? store n id deed)) := by
    intro hspares hwrites hsees
    rw [sessions_act_of_spares hspares, hwrites, hsees]
    exact Option.or_none.symm
  cases deed with
  | opened k optimistic => exact hspared hunit rfl rfl
  | called call => exact hspared trivial rfl rfl
  | clocked time => exact hspared trivial rfl rfl
  | worked k op =>
      by_cases hk : k = n
      · subst hk
        have hkeyed : (d.world.memory (d.sessions k).store).Keyed := by
          rw [hsound.stores k]
          exact hsound.keyed
        have hheld := op.held?_run hsound.calm hkeyed (fun h => hunit ⟨rfl, h⟩) id
        rw [sessions_worked, writes?, sees?, if_pos rfl]
        simp only [true_and]
        rw [hsound.stores k] at hheld
        exact hheld
      · refine hspared hk (if_neg hk) (if_neg fun h => hk h.1)

theorem held?_acts (hsound : d.Sound store) {unit : List Deed} (hunit : d.Continues store n unit)
    (id : DocId) :
    ((d.acts store unit).sessions n).held? id =
      (d.lastWritten? store n id unit).or
        (((d.sessions n).held? id).or (d.firstSeen? store n id unit)) := by
  induction unit generalizing d with
  | nil => exact Option.or_none.symm
  | cons deed rest ih =>
      obtain ⟨hdeed, hrest⟩ := hunit
      have hlast := ih (hsound.act deed) hrest
      rw [held?_act hsound hdeed] at hlast
      simp only [lastWritten?, firstSeen?, Option.or_assoc] at hlast ⊢
      exact hlast

theorem sessions_of_begins (hsound : d.Sound store) {first : Deed} (h : d.Begins n first) :
    ∃ optimistic, (d.act store first).sessions n = Session.empty store optimistic := by
  cases first with
  | called call => cases h
  | clocked time => cases h
  | opened k optimistic =>
      obtain rfl : k = n := h
      exact ⟨optimistic, if_pos rfl⟩
  | worked k op =>
      obtain ⟨rfl, hsends⟩ := h
      rw [sessions_worked]
      cases op with
      | saveChanges =>
          obtain ⟨hbatch, hok⟩ := hsends
          have hsaves : Saves d k (d.perform k .saveChanges) := saves_perform hsound.calm
          change (d.perform k .saveChanges).1.1.isOk at hok
          generalize d.perform k .saveChanges = result at hsaves hok
          cases hsaves with
          | unsent hempty => exact absurd hempty hbatch
          | sent =>
              refine ⟨(d.sessions k).optimistic, ?_⟩
              rw [← hsound.stores k]
              rfl
          | refused => cases hok
      | _ => cases hsends

theorem held?_of_begins (hsound : d.Sound store) {first : Deed} (h : d.Begins n first)
    (id : DocId) : ((d.act store first).sessions n).held? id = none := by
  obtain ⟨optimistic, hempty⟩ := sessions_of_begins hsound h
  rw [hempty]
  rfl

structure Reads (store : StoreRef) (d : Desk) (n : Nat) (form : DocId → Option Json) : Prop where
  load : ∀ (α : Type) [Document α] (id : DocId),
    d.world.loads (d.sessions n) α id = Document.read α id (form id)
  loadMany : ∀ (α : Type) [Document α] (ids : List DocId),
    (d.world.run ((Work.loadMany α ids).start (d.sessions n))).1.1 =
      ids.mapM (d.world.loads (d.sessions n) α)
  query : ∀ (α : Type) [Document α] (q : Query),
    (d.world.run ((Work.query α q).start (d.sessions n))).1.1 =
      (d.world.memory store).query q >>= Work.present (d.world.loads (d.sessions n) α)
  once : ∀ (α : Type) [Document α] (q : Query) (entries : List (DocId × α)),
    (d.world.run ((Work.query α q).start (d.sessions n))).1.1 = .ok entries →
      (entries.map (·.1)).Nodup ∧
        ∀ entry ∈ entries, d.world.loads (d.sessions n) α entry.1 = .ok (some entry.2)

theorem reads_of_sound (hsound : d.Sound store) (n : Nat) :
    d.Reads store n fun id =>
      ((d.sessions n).held? id).getD ((d.world.memory store).body? id) := by
  have hkeyed : (d.world.memory (d.sessions n).store).Keyed := by
    rw [hsound.stores n]
    exact hsound.keyed
  have hquery : ∀ (α : Type) [Document α] (q : Query),
      (d.world.run ((Work.query α q).start (d.sessions n))).1.1 =
        (d.world.memory store).query q >>= Work.present (d.world.loads (d.sessions n) α) := by
    intro α _ q
    rw [World.run_query_seen hsound.calm hkeyed, hsound.stores n]
  constructor
  · intro α _ id
    rw [World.loads_eq_read hsound.calm, hsound.stores n]
  · intro α _ ids
    rw [World.run_loadMany hsound.calm]
  · exact hquery
  · intro α _ q entries h
    rw [hquery] at h
    obtain ⟨found, hfound, hpresent⟩ := bind_eq_ok.mp h
    obtain ⟨hsublist, hentries⟩ := Work.present_eq_ok hpresent
    exact ⟨(Memory.nodup_ids_of_query hsound.keyed hfound).sublist hsublist, hentries⟩

/-- From the beginning of a unit of work of a session to its next one, whatever everybody else
does, the session reads of a document what it wrote last, or else what it saw first, or else what
the store has. -/
theorem reads_repeat (store : StoreRef) (clock : Instant) (before : List Deed) (first : Deed)
    (unit : List Deed) (n : Nat) (hbegins : ((start store clock).acts store before).Begins n first)
    (hunit : ((start store clock).acts store (before ++ [first])).Continues store n unit) :
    let began := (start store clock).acts store (before ++ [first])
    let d := began.acts store unit
    d.Reads store n fun id =>
      ((began.lastWritten? store n id unit).or (began.firstSeen? store n id unit)).getD
        ((d.world.memory store).body? id) := by
  intro began d
  have hsound : ((start store clock).acts store before).Sound store :=
    (sound_start store clock).acts before
  have hbegan : began.Sound store := (sound_start store clock).acts _
  have hheld : ∀ id, (d.sessions n).held? id =
      (began.lastWritten? store n id unit).or (began.firstSeen? store n id unit) := by
    intro id
    have hnone : (began.sessions n).held? id = none := by
      have hfirst := held?_of_begins hsound hbegins id
      rwa [show began = _ from List.foldl_append ..]
    rw [held?_acts hbegan hunit id, hnone, Option.none_or]
  have hreads : d.Reads store n fun id =>
      ((d.sessions n).held? id).getD ((d.world.memory store).body? id) :=
    reads_of_sound (hbegan.acts unit) n
  simpa only [hheld] using hreads

namespace Sample

def otherId : DocId := Document.idFor FieldMap "b"

/-- A session loads two hashes, of which one is there; then others write both of them. -/
def overtaken : List Deed :=
  [.worked 0 (.loadMany FieldMap [hashId, otherId]), written "2" .any,
    .called (.commit [.put otherId (Document.encode (hash "3")) none .absent])]

def reading : Desk := desk ([written "1" .absent, .opened 0 true] ++ overtaken)

end Sample

open Desk.Sample in
theorem reads_repeat_overtaken :
    ((start ⟨0⟩ .origin).acts ⟨0⟩ [written "1" .absent]).Begins 0 (.opened 0 true) ∧
      ((start ⟨0⟩ .origin).acts ⟨0⟩ ([written "1" .absent] ++ [.opened 0 true])).Continues ⟨0⟩ 0
        overtaken ∧
      (reading.world.loads (reading.sessions 0) FieldMap hashId).toOption =
        some (some (Sample.hash "1")) ∧
      (reading.world.loads (reading.sessions 0) FieldMap otherId).toOption = some none ∧
      ∀ q entries, (reading.world.run ((Work.query FieldMap q).start (reading.sessions 0))).1.1 =
        .ok entries → otherId ∉ entries.map (·.1) := by
  have hbegins : ((start ⟨0⟩ .origin).acts ⟨0⟩ [written "1" .absent]).Begins 0 (.opened 0 true) :=
    rfl
  have hunit : ((start ⟨0⟩ .origin).acts ⟨0⟩ ([written "1" .absent] ++ [.opened 0 true])).Continues
      ⟨0⟩ 0 overtaken := ⟨fun h => h.2, fun h => h, fun h => h, trivial⟩
  have hreads := reads_repeat ⟨0⟩ .origin [written "1" .absent] (.opened 0 true) overtaken 0
    hbegins hunit
  have hother :
      (reading.world.loads (reading.sessions 0) FieldMap otherId).toOption = some none := by
    refine (congrArg Except.toOption (hreads.load FieldMap otherId)).trans ?_
    decide +kernel
  refine ⟨hbegins, hunit, ?_, hother, fun q entries h hmem => ?_⟩
  · refine (congrArg Except.toOption (hreads.load FieldMap hashId)).trans ?_
    decide +kernel
  · obtain ⟨entry, hentry, hid⟩ := List.mem_map.mp hmem
    have hfound := (hreads.once FieldMap q entries h).2 entry hentry
    rw [hid] at hfound
    have hboth := (congrArg Except.toOption hfound).symm.trans hother
    cases hboth

end Simulation.Desk

end Jobyard
