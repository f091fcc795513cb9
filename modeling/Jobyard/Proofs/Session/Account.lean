import Jobyard.Proofs.Session.Repeat
import Jobyard.Proofs.Transaction.Commit
import Mathlib.Data.List.Basic

/-!
The batch of a session, told from its unit of work alone. What the session saw of a document first
decides which version the write of the document expects, and what it did to the document since then
decides what is written.
-/

namespace Jobyard

namespace Alteration

def form (body : Option Json) (alteration : Alteration) : Option Json :=
  alteration.writes?.getD body

def expiry : Option Instant → Alteration → Option Instant
  | _, dated expiresAt => expiresAt
  | expiresAt, _ => expiresAt

end Alteration

structure Account where
  /-- What the store had of the document when the session first saw it there. A document that the
  session altered before is not seen there any more: whatever finds it, the session's own form of
  it is shown. -/
  sight : Option (Option Stored)
  alterations : List Alteration

namespace Account

def blank : Account := ⟨none, []⟩

def sees (a : Account) (found : Option Stored) : Account :=
  match a.alterations with
  | [] => ⟨a.sight.or (some found), []⟩
  | _ => a

def alters (a : Account) (alteration : Alteration) : Account :=
  { a with alterations := a.alterations ++ [alteration] }

def takes (a : Account) (id : DocId) : Option (DocId × Alteration) → Account
  | some (other, alteration) => if other = id then a.alters alteration else a
  | none => a

/-- The body of the document in the session, none if the session takes it for absent. -/
def form (a : Account) : Option Json :=
  a.alterations.foldl Alteration.form (a.sight.join.map (·.body))

def expiresAt (a : Account) : Option Instant :=
  a.alterations.foldl Alteration.expiry (a.sight.join.bind (·.expiresAt))

/-- What is to be written of the document: nothing unless it was altered. A put expects the version
that was seen first, or that there is no document if none was seen. A delete expects that version;
a document that was seen to be absent needs none, and one that was not seen goes in any version. -/
def write? (a : Account) (id : DocId) : Option Write :=
  if a.alterations.isEmpty then none
  else
    match a.form, a.sight with
    | some body, some (some d) => some (.put id body a.expiresAt (.exact d.etag))
    | some body, _ => some (.put id body a.expiresAt .absent)
    | none, some (some d) => some (.delete id (.exact d.etag))
    | none, some none => none
    | none, none => some (.delete id .any)

structure Describes (a : Account) (t : Tracked) : Prop where
  known : t.known = a.sight.isSome
  etag : t.etag = a.sight.join.map (·.etag)
  body : t.body? = a.form
  expiresAt : t.expiresAt = a.expiresAt
  unaltered : t.status = .unchanged ↔ a.alterations = []
  filled : t.status = .dirty → a.form.isSome

variable {a : Account} {t : Tracked} {id : DocId}

theorem describes_blank : blank.Describes .unasked where
  known := rfl
  etag := rfl
  body := rfl
  expiresAt := rfl
  unaltered := ⟨fun _ => rfl, fun _ => rfl⟩
  filled h := nomatch h

theorem describes_ofLoaded (found : Option Stored) :
    Describes ⟨some found, []⟩ (.ofLoaded found) := by
  cases found <;> exact ⟨rfl, rfl, rfl, rfl, ⟨fun _ => rfl, fun _ => rfl⟩, nofun⟩

theorem Describes.eq_blank (h : a.Describes .unasked) : a = blank := by
  obtain ⟨sight, alterations⟩ := a
  have hsight : sight = none := by simpa [Tracked.unasked] using h.known.symm
  have halterations : alterations = [] := h.unaltered.mp rfl
  rw [hsight, halterations]
  rfl

theorem form_alters (a : Account) (alteration : Alteration) :
    (a.alters alteration).form = alteration.form a.form := by
  simp [form, alters]

theorem expiresAt_alters (a : Account) (alteration : Alteration) :
    (a.alters alteration).expiresAt = alteration.expiry a.expiresAt := by
  simp [expiresAt, alters]

theorem Describes.altered (h : a.Describes t) {alteration : Alteration}
    (hdated : ∀ expiresAt, alteration = .dated expiresAt → t.isPresent = true) :
    (a.alters alteration).Describes (t.altered alteration) := by
  have haltered : (a.alters alteration).alterations ≠ [] := by simp [alters]
  cases alteration with
  | stored body =>
      refine ⟨h.known, h.etag, ?_, ?_, ⟨nofun, fun hnone => absurd hnone haltered⟩, fun _ => ?_⟩
      · rw [form_alters]
        rfl
      · rw [expiresAt_alters]
        exact h.expiresAt
      · rw [form_alters]
        rfl
  | deleted =>
      refine ⟨h.known, h.etag, ?_, ?_, ⟨nofun, fun hnone => absurd hnone haltered⟩, nofun⟩
      · rw [form_alters]
        rfl
      · rw [expiresAt_alters]
        exact h.expiresAt
  | dated expiresAt =>
      have hpresent := hdated expiresAt rfl
      have hbody : (t.date expiresAt).body? = a.form :=
        (Tracked.becomes_date hpresent expiresAt).body.trans h.body
      refine ⟨h.known, h.etag, ?_, ?_, ⟨nofun, fun hnone => absurd hnone haltered⟩, fun _ => ?_⟩
      · rw [form_alters]
        exact hbody
      · rw [expiresAt_alters]
        rfl
      · rw [form_alters]
        change a.form.isSome
        rwa [← h.body, ← Tracked.isPresent_eq]

theorem Describes.isEmpty_eq_false (h : a.Describes t) (hstatus : t.status ≠ .unchanged) :
    a.alterations.isEmpty = false := by
  rw [List.isEmpty_eq_false_iff]
  exact fun hnone => hstatus (h.unaltered.mpr hnone)

theorem Describes.write?_eq (h : a.Describes t) (id : DocId) :
    t.write? true id = a.write? id := by
  have hknown := h.known
  have hetag := h.etag
  unfold Tracked.write? write?
  cases hstatus : t.status with
  | unchanged =>
      rw [h.unaltered.mp hstatus]
      rfl
  | dirty =>
      obtain ⟨body, hform⟩ := Option.isSome_iff_exists.mp (h.filled hstatus)
      have hbody : t.body = some body := by
        rw [← hform, ← h.body, Tracked.body?, hstatus]
        rfl
      rw [h.isEmpty_eq_false (by rw [hstatus]; decide), hform, hbody, hetag, h.expiresAt]
      cases a.sight with
      | none => rfl
      | some found => cases found <;> rfl
  | deleted =>
      have hform : a.form = none := by
        rw [← h.body, Tracked.body?, hstatus]
        rfl
      rw [h.isEmpty_eq_false (by rw [hstatus]; decide), hform, hknown, hetag]
      cases a.sight with
      | none => rfl
      | some found => cases found <;> rfl

end Account

namespace Session

variable {s next : Session} {id : DocId} {a : Account}

/-- The account tells what a session holds of a document, and the session holds something of every
document that it touched. -/
structure Accounted (s : Session) (id : DocId) (a : Account) : Prop where
  held : a.Describes ((s.find? id).getD .unasked)
  begun : s.isTracked id = true → a.sight.isSome ∨ a.alterations ≠ []

theorem accounted_empty (h : s.tracked = []) (id : DocId) : s.Accounted id .blank := by
  have hnone : s.find? id = none := by rw [find?, h]; rfl
  refine ⟨?_, fun htracked => ?_⟩
  · rw [hnone]
    exact Account.describes_blank
  · rw [isTracked, hnone] at htracked
    cases htracked

theorem Accounted.sees_of_tracked (h : s.Accounted id a) (htracked : s.isTracked id = true)
    (found : Option Stored) : a.sees found = a := by
  obtain ⟨sight, alterations⟩ := a
  cases alterations with
  | cons first rest => rfl
  | nil =>
      have hsight : sight.isSome := (h.begun htracked).resolve_right fun hne => hne rfl
      obtain ⟨seen, rfl⟩ := Option.isSome_iff_exists.mp hsight
      rfl

theorem Accounted.congr (h : s.Accounted id a) (hfind : next.find? id = s.find? id) :
    next.Accounted id a := by
  constructor
  · rw [hfind]
    exact h.held
  · unfold isTracked
    rw [hfind]
    exact h.begun

theorem Accounted.looking (h : s.Accounted id a) (m : Memory) (ids : List DocId) :
    (s.looking m ids).Accounted id (if id ∈ ids then a.sees (m.find? id) else a) := by
  have hfind := s.notices_looking m ids id
  by_cases hmem : id ∈ ids
  · rw [if_pos hmem, seen] at hfind
    rw [if_pos hmem]
    cases hfound : s.find? id with
    | some t =>
        rw [h.sees_of_tracked (by rw [isTracked, hfound]; rfl)]
        refine h.congr ?_
        rw [hfind, hfound]
        rfl
    | none =>
        have hheld := h.held
        rw [hfound, Option.getD_none] at hfind hheld
        rw [hheld.eq_blank]
        refine ⟨?_, fun _ => .inl rfl⟩
        rw [hfind]
        exact Account.describes_ofLoaded (m.find? id)
  · rw [if_neg hmem] at hfind ⊢
    exact h.congr hfind

theorem Accounted.altering (h : s.Accounted id a) {alteration : Option (DocId × Alteration)}
    (hpermits : s.Permits alteration) :
    (s.altering alteration).Accounted id (a.takes id alteration) := by
  cases alteration with
  | none => exact h
  | some entry =>
      obtain ⟨other, change⟩ := entry
      by_cases hother : other = id
      · subst hother
        have hheld : (a.alters change).Describes (((s.find? other).getD .unasked).altered change) :=
          h.held.altered fun expiresAt hchange => hpermits other expiresAt (by rw [hchange])
        simp only [Account.takes, if_true]
        refine ⟨?_, fun _ => .inr (by simp [Account.alters])⟩
        simp only [Session.altering, find?_track_self]
        exact hheld
      · simp only [Account.takes, if_neg hother]
        exact h.congr ((find?_track s other id _).trans (if_neg (Ne.symm hother)))

/-- What was touched, what was done to each document and which writes were put off tell what a
session with checks of versions holds. -/
structure Told (s : Session) (touched : List DocId) (account : DocId → Account)
    (queued : List Write) : Prop where
  touched : s.FirstTouched touched
  accounted : ∀ id, s.Accounted id (account id)
  deferred : s.deferred = queued
  optimistic : s.optimistic = true

/-- The batch that a session would send is told by what was touched, by what was done to each
document, and by the writes that were put off. -/
structure Recounts (s : Session) (touched : List DocId) (account : DocId → Account)
    (queued : List Write) : Prop where
  order : s.order = touched.eraseDups
  once : s.order.Nodup
  tracked : ∀ id, id ∈ s.order ↔ s.isTracked id = true
  batch : s.batch = s.documentWrites ++ queued
  documents : s.documentWrites = s.order.filterMap fun id => (account id).write? id
  /-- A document has at most one of these writes. -/
  inOrder : (s.documentWrites.map Write.id).Sublist s.order

variable {touched : List DocId} {account : DocId → Account} {queued : List Write}

theorem Told.recounts (h : s.Told touched account queued) : s.Recounts touched account queued where
  order := h.touched
  once := h.touched.nodup
  tracked _ := mem_order_iff h.touched.nodup
  batch := by rw [batch_eq, h.deferred]
  documents := by
    unfold documentWrites order
    rw [List.filterMap_map, h.optimistic]
    refine List.filterMap_congr fun entry hentry => ?_
    have hheld := (h.accounted entry.1).held
    rw [(mem_tracked_iff h.touched.nodup).mp hentry, Option.getD_some] at hheld
    exact hheld.write?_eq entry.1
  inOrder := s.ids_documentWrites_sublist

theorem told_of_empty (htracked : s.tracked = []) (hdeferred : s.deferred = [])
    (hoptimistic : s.optimistic = true) : s.Told [] (fun _ => .blank) [] where
  touched := by
    unfold FirstTouched order
    rw [htracked]
    rfl
  accounted := accounted_empty htracked
  deferred := hdeferred
  optimistic := hoptimistic

theorem optimistic_looking (s : Session) (m : Memory) (ids : List DocId) :
    (s.looking m ids).optimistic = s.optimistic := by
  induction ids generalizing s with
  | nil => rfl
  | cons id rest ih => exact ih (s.look m id)

theorem deferred_looking (s : Session) (m : Memory) (ids : List DocId) :
    (s.looking m ids).deferred = s.deferred := by
  induction ids generalizing s with
  | nil => rfl
  | cons id rest ih => exact ih (s.look m id)

theorem Told.looking (h : s.Told touched account queued) (m : Memory) (ids : List DocId) :
    (s.looking m ids).Told (touched ++ ids)
      (fun id => if id ∈ ids then (account id).sees (m.find? id) else account id) queued where
  touched := h.touched.looking m ids
  accounted id := (h.accounted id).looking m ids
  deferred := (s.deferred_looking m ids).trans h.deferred
  optimistic := (s.optimistic_looking m ids).trans h.optimistic

theorem Told.altering (h : s.Told touched account queued)
    {alteration : Option (DocId × Alteration)} (hpermits : s.Permits alteration) :
    (s.altering alteration).Told (touched ++ (alteration.map (·.1)).toList)
      (fun id => (account id).takes id alteration) queued where
  touched := h.touched.altering alteration
  accounted id := (h.accounted id).altering hpermits
  deferred := by
    rw [← h.deferred]
    cases alteration <;> rfl
  optimistic := by
    rw [← h.optimistic]
    cases alteration <;> rfl

theorem Told.deferring (h : s.Told touched account queued) (writes : List Write) :
    (s.deferring writes).Told touched account (queued ++ writes) where
  touched := h.touched
  accounted id := (h.accounted id).congr rfl
  deferred := congrArg (· ++ writes) h.deferred
  optimistic := h.optimistic

end Session

namespace SessionOp

variable {w : Simulation.World} {s : Session} {touched : List DocId} {account : DocId → Account}
  {queued : List Write}

def notes (w : Simulation.World) (s : Session) (id : DocId) (a : Account) (op : SessionOp) :
    Account :=
  (if id ∈ op.looks w s then a.sees ((w.memory s.store).find? id) else a).takes id (op.alters w s)

theorem told_run (hcalm : w.Calm) (hkeyed : (w.memory s.store).Keyed) {op : SessionOp}
    (hunsent : ¬ op.Sends w s) (h : s.Told touched account queued) :
    (w.run (op.work.start s)).1.2.Told (touched ++ op.touches w s)
      (fun id => op.notes w s id (account id)) (queued ++ op.defers) := by
  have hlooking := h.looking (w.memory s.store) (op.looks w s)
  have haltering := hlooking.altering (permits_alters hcalm op)
  rw [session_run hcalm hkeyed hunsent]
  rw [List.append_assoc] at haltering
  exact haltering.deferring op.defers

end SessionOp

namespace Simulation.Desk

def touches (d : Desk) (n : Nat) : Deed → List DocId
  | .worked k op => if k = n then op.touches d.world (d.sessions n) else []
  | _ => []

def notes (d : Desk) (n : Nat) (id : DocId) (a : Account) : Deed → Account
  | .worked k op => if k = n then op.notes d.world (d.sessions n) id a else a
  | _ => a

def puts (n : Nat) : Deed → List Write
  | .worked k op => if k = n then op.defers else []
  | _ => []

def touched (store : StoreRef) (n : Nat) (d : Desk) : List Deed → List DocId
  | [] => []
  | deed :: rest => d.touches n deed ++ (d.act store deed).touched store n rest

def account (store : StoreRef) (n : Nat) (id : DocId) (d : Desk) (a : Account) :
    List Deed → Account
  | [] => a
  | deed :: rest => (d.act store deed).account store n id (d.notes n id a deed) rest

variable {store : StoreRef} {d : Desk} {n : Nat} {ids : List DocId} {accounts : DocId → Account}
  {writes : List Write}

theorem told_act (hsound : d.Sound store) {deed : Deed} (hunit : ¬ d.Begins n deed)
    (h : (d.sessions n).Told ids accounts writes) :
    ((d.act store deed).sessions n).Told (ids ++ d.touches n deed)
      (fun id => d.notes n id (accounts id) deed) (writes ++ puts n deed) := by
  have hspared : deed.Spares n → d.touches n deed = [] →
      (∀ id a, d.notes n id a deed = a) → puts n deed = [] →
      ((d.act store deed).sessions n).Told (ids ++ d.touches n deed)
        (fun id => d.notes n id (accounts id) deed) (writes ++ puts n deed) := by
    intro hspares htouches hnotes hputs
    rw [sessions_act_of_spares hspares, htouches, hputs, List.append_nil, List.append_nil]
    simpa only [hnotes] using h
  cases deed with
  | opened k optimistic => exact hspared hunit rfl (fun _ _ => rfl) rfl
  | called call => exact hspared trivial rfl (fun _ _ => rfl) rfl
  | clocked time => exact hspared trivial rfl (fun _ _ => rfl) rfl
  | worked k op =>
      by_cases hk : k = n
      · subst hk
        have hkeyed : (d.world.memory (d.sessions k).store).Keyed := by
          rw [hsound.stores k]
          exact hsound.keyed
        have hrun := op.told_run hsound.calm hkeyed (fun hsends => hunit ⟨rfl, hsends⟩) h
        simp only [touches, notes, puts, if_true]
        rw [sessions_worked]
        exact hrun
      · exact hspared hk (if_neg hk) (fun _ _ => if_neg hk) (if_neg hk)

theorem told_acts (hsound : d.Sound store) {unit : List Deed} (hunit : d.Continues store n unit)
    (h : (d.sessions n).Told ids accounts writes) :
    ((d.acts store unit).sessions n).Told (ids ++ d.touched store n unit)
      (fun id => d.account store n id (accounts id) unit) (writes ++ unit.flatMap (puts n)) := by
  induction unit generalizing d ids accounts writes with
  | nil =>
      rw [touched, List.append_nil, List.flatMap_nil, List.append_nil]
      exact h
  | cons deed rest ih =>
      obtain ⟨hdeed, hrest⟩ := hunit
      have hlast := ih (hsound.act deed) hrest (told_act hsound hdeed h)
      rw [List.append_assoc, List.append_assoc] at hlast
      exact hlast

theorem told_of_begins (hsound : d.Sound store) {first : Deed} (h : d.Begins n first)
    (hoptimistic : ((d.act store first).sessions n).optimistic = true) :
    ((d.act store first).sessions n).Told [] (fun _ => .blank) [] := by
  obtain ⟨optimistic, hempty⟩ := sessions_of_begins hsound h
  refine Session.told_of_empty ?_ ?_ hoptimistic
  · rw [hempty]
    rfl
  · rw [hempty]
    rfl

/-- From the beginning of a unit of work of a session with checks of versions to its next one,
whatever everybody else does, the session tracks what it touched, each document once and in the
order of the first touches. Its batch has for each document the one write that the account of the
document calls for, if any, in the same order, and then the writes that were put off. -/
theorem recounts_unit (store : StoreRef) (clock : Instant) (before : List Deed) (first : Deed)
    (unit : List Deed) (n : Nat) (hbegins : ((start store clock).acts store before).Begins n first)
    (hunit : ((start store clock).acts store (before ++ [first])).Continues store n unit)
    (hoptimistic :
      (((start store clock).acts store (before ++ [first])).sessions n).optimistic = true) :
    let began := (start store clock).acts store (before ++ [first])
    ((began.acts store unit).sessions n).Recounts (began.touched store n unit)
      (fun id => began.account store n id .blank unit) (unit.flatMap (puts n)) := by
  intro began
  have hsound : ((start store clock).acts store before).Sound store :=
    (sound_start store clock).acts before
  have hbegan : began.Sound store := (sound_start store clock).acts _
  have heq : began = ((start store clock).acts store before).act store first :=
    List.foldl_append ..
  have htold : (began.sessions n).Told [] (fun _ => .blank) [] := by
    have hfirst := told_of_begins hsound hbegins
    rw [← heq] at hfirst
    exact hfirst hoptimistic
  exact (told_acts hbegan hunit htold).recounts

namespace Sample

def thirdId : DocId := Document.idFor FieldMap "c"

def counted : Write := .increment (Document.idFor Counter "n") "value" 1 none

/-- Of two hashes that are there, a session changes one that it loaded and somebody else wrote
since, and deletes the other one without a look at it; a third one it creates and deletes again. -/
def drafting : List Deed :=
  [.worked 0 (.load FieldMap hashId), written "2" .any, .worked 0 (.defer counted),
    .worked 0 (.save FieldMap hashId (hash "3")), .worked 0 (.delete otherId),
    .worked 0 (.loadOrBlank FieldMap thirdId), .worked 0 (.delete thirdId)]

def twoHashes : List Deed :=
  [written "1" .absent,
    .called (.commit [.put otherId (Document.encode (hash "1")) none .absent])]

def drafted : Session := (desk (twoHashes ++ [.opened 0 true] ++ drafting)).sessions 0

end Sample

open Desk.Sample in
theorem recounts_unit_drafted :
    ((start ⟨0⟩ .origin).acts ⟨0⟩ twoHashes).Begins 0 (.opened 0 true) ∧
      ((start ⟨0⟩ .origin).acts ⟨0⟩ (twoHashes ++ [.opened 0 true])).Continues ⟨0⟩ 0 drafting ∧
      (((start ⟨0⟩ .origin).acts ⟨0⟩ (twoHashes ++ [.opened 0 true])).sessions 0).optimistic =
        true ∧
      drafted.order = [hashId, otherId, thirdId] ∧
      drafted.batch.map (fun w => (w.id, w.demand)) =
        [(hashId, some (.exact 1)), (otherId, some .any), (counted.id, none)] := by
  have hbegins : ((start ⟨0⟩ .origin).acts ⟨0⟩ twoHashes).Begins 0 (.opened 0 true) := rfl
  have hunit : ((start ⟨0⟩ .origin).acts ⟨0⟩ (twoHashes ++ [.opened 0 true])).Continues ⟨0⟩ 0
      drafting := by
    refine ⟨fun h => h.2, fun h => h, fun h => h.2, fun h => h.2, fun h => h.2, fun h => h.2,
      fun h => h.2, trivial⟩
  have hoptimistic : (((start ⟨0⟩ .origin).acts ⟨0⟩ (twoHashes ++ [.opened 0 true])).sessions
      0).optimistic = true := rfl
  have hrecounts : drafted.Recounts _ _ _ :=
    recounts_unit ⟨0⟩ .origin twoHashes (.opened 0 true) drafting 0 hbegins hunit hoptimistic
  refine ⟨hbegins, hunit, hoptimistic, hrecounts.order.trans ?_, ?_⟩
  · decide +kernel
  · rw [hrecounts.batch, hrecounts.documents, hrecounts.order]
    decide +kernel

end Simulation.Desk

end Jobyard
