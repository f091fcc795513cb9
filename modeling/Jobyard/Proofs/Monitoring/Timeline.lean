import Jobyard.Monitoring.Basic
import Jobyard.Proofs.Counter.Rise
import Jobyard.Proofs.Monitoring.StatsKey
import Jobyard.Proofs.Session.Mirror
import Jobyard.Proofs.Time.Bucket
import Mathlib.Data.List.Basic

/-!
Counts by day and by hour agree with those who count. A report has one entry for each of the last
days or hours, with the value of the counter of that day or hour, and a count at a point of time
raises the entry of the day or hour in which it lies.
-/

namespace Jobyard

namespace Monitoring

section Reports

variable {ρ : Type} {places : List ρ} {count : ρ → Int}

/-- The counts of places, the last place first. -/
def counted (places : List ρ) (count : ρ → Int) : List (ρ × Int) :=
  (places.map fun place => (place, count place)).reverse

def raisedAt (p : ρ → Bool) (report : List (ρ × Int)) : List (ρ × Int) :=
  report.map fun entry => (entry.1, if p entry.1 then entry.2 + 1 else entry.2)

theorem counted_raised {p : ρ → Bool} {raised : ρ → Int}
    (h : ∀ place ∈ places, raised place = if p place then count place + 1 else count place) :
    counted places raised = raisedAt p (counted places count) := by
  unfold counted raisedAt
  rw [List.map_reverse, List.map_map]
  congr 1
  apply List.map_congr_left
  intro place hplace
  exact congrArg (place, ·) (h place hplace)

/-- The counts of a latest place and of those that lie back from it, the earliest first. -/
structure Timeline (length : Nat) (latest : ρ) (Back : Nat → ρ → Prop) (Earlier : ρ → ρ → Prop)
    (count : ρ → Int) (report : List (ρ × Int)) : Prop where
  length : report.length = length
  latest : report.getLast?.map Prod.fst = some latest
  back : ∀ k entry, report.reverse[k]? = some entry → Back k entry.1
  ascending : report.Pairwise fun a b => Earlier a.1 b.1
  counted : ∀ entry ∈ report, entry.2 = count entry.1

theorem timeline_counted {length : Nat} (place : Nat → ρ) {Back : Nat → ρ → Prop}
    {Earlier : ρ → ρ → Prop} (hlength : 0 < length) (hback : ∀ k < length, Back k (place k))
    (hearlier : ∀ j k, j < k → k < length → Earlier (place k) (place j)) (count : ρ → Int) :
    Timeline length (place 0) Back Earlier count
      (counted ((List.range length).map place) count) where
  length := by simp [Monitoring.counted]
  latest := by
    unfold Monitoring.counted
    rw [List.getLast?_reverse, List.head?_map, List.head?_map, List.head?_range,
      if_neg (Nat.ne_of_gt hlength)]
    rfl
  back k entry hentry := by
    unfold Monitoring.counted at hentry
    rw [List.reverse_reverse, List.getElem?_map, List.getElem?_map] at hentry
    obtain ⟨other, hother, rfl⟩ := Option.map_eq_some_iff.mp hentry
    obtain ⟨index, hindex, rfl⟩ := Option.map_eq_some_iff.mp hother
    obtain ⟨hk, rfl⟩ := List.getElem?_eq_some_iff.mp hindex
    rw [List.length_range] at hk
    rw [List.getElem_range]
    exact hback k hk
  ascending := by
    unfold Monitoring.counted
    rw [List.pairwise_reverse, List.pairwise_map, List.pairwise_map]
    apply List.pairwise_lt_range.imp_of_mem
    intro j k _ hk hlt
    exact hearlier j k hlt (List.mem_range.mp hk)
  counted entry hentry := by
    obtain ⟨place, _, rfl⟩ := List.mem_map.mp (List.mem_reverse.mp hentry)
    rfl

end Reports

def HourReport (now : Instant) : (Instant → Int) → List (Instant × Int) → Prop :=
  Timeline 24 now.hourStart (Instant.HoursBack now.hourStart) fun a b => a.before b = true

def DayReport (now : Instant) : (Date → Int) → List (Date × Int) → Prop :=
  Timeline 7 now.date (fun k d => d.Valid ∧ d.toDay = now.day - k) fun a b => a.toDay < b.toDay

section Places

variable {now : Instant}

def hourBack (now : Instant) (k : Nat) : Instant :=
  (now.hourStart.minus? (.ofSeconds ((k : Int) * 3600))).getD now

theorem hoursBack_hourBack (hday : Instant.leastDay < now.day) {k : Nat} (hk : k < 24) :
    now.hourStart.minus? (.ofSeconds ((k : Int) * 3600)) = some (hourBack now k) ∧
      Instant.HoursBack now.hourStart k (hourBack now k) := by
  obtain ⟨h, hminus, hback⟩ := Instant.exists_hoursBack hday hk
  have hsame : hourBack now k = h := by
    unfold hourBack
    rw [hminus, Option.getD_some]
  rw [hsame]
  exact ⟨hminus, hback⟩

theorem lastHours_eq (hday : Instant.leastDay < now.day) :
    lastHours now = (List.range 24).map (hourBack now) := by
  apply List.filterMap_eq_map_iff_forall_eq_some.mpr
  intro k hk
  exact (hoursBack_hourBack hday (List.mem_range.mp hk)).1

theorem lastDays_eq {today : Int} (hday : Instant.leastDay + 7 ≤ today) :
    lastDays today = (List.range 7).map fun (k : Nat) => today - k := by
  unfold lastDays
  rw [List.filter_eq_self]
  intro day hmem
  obtain ⟨k, hk, rfl⟩ := List.mem_map.mp hmem
  have hk := List.mem_range.mp hk
  rw [decide_eq_true_iff]
  omega

theorem hourReport (hday : Instant.leastDay < now.day) (count : Instant → Int) :
    HourReport now count (counted (lastHours now) count) := by
  have hlatest : hourBack now 0 = now.hourStart := by
    obtain ⟨hhour, hforward⟩ := (hoursBack_hourBack hday (k := 0) (by decide)).2
    have hback := Instant.HoursBack.place ⟨hhour, hforward⟩
    obtain ⟨_, hnano⟩ := (Instant.isHour_iff _).mp hhour
    obtain ⟨_, hnow⟩ := (Instant.isHour_iff _).mp now.isHour_hourStart
    have hsecond := (hourBack now 0).bounds.2.2.1
    have hnowSecond := now.hourStart.bounds.2.2.1
    rw [Instant.place_eq, Instant.place_eq] at hback
    apply Instant.eq_of_parts <;> omega
  rw [lastHours_eq hday, HourReport, ← hlatest]
  apply timeline_counted (hourBack now) (by decide)
  · intro k hk
    rw [hlatest]
    exact (hoursBack_hourBack hday hk).2
  · intro j k hlt hk
    have hj := (hoursBack_hourBack hday (Nat.lt_trans hlt hk)).2.place
    have hk := (hoursBack_hourBack hday hk).2.place
    rw [Instant.before_iff]
    omega

theorem dayReport (hday : Instant.leastDay + 7 ≤ now.day) (count : Date → Int) :
    DayReport now count (counted ((lastDays now.day).map Date.ofDay) count) := by
  have hlatest : now.date = Date.ofDay (now.day - (0 : Nat)) :=
    congrArg Date.ofDay (Int.sub_zero now.day).symm
  rw [lastDays_eq hday, List.map_map, DayReport, hlatest]
  apply timeline_counted (fun k : Nat => Date.ofDay (now.day - k)) (by decide)
  · intro k _
    exact Date.ofDay_spec _
  · intro j k hlt _
    rw [(Date.ofDay_spec _).2, (Date.ofDay_spec _).2]
    omega

theorem hourly_eq_iff_covers (hday : Instant.leastDay < now.day)
    (hlast : now.day < Instant.greatestDay) {h : Instant} (hmem : h ∈ lastHours now)
    (a b : String) (t : Instant) : StatsKey.hourly a h = StatsKey.hourly b t ↔
      (a == b && h.covers Instant.hourLength t) = true := by
  rw [lastHours_eq hday] at hmem
  obtain ⟨k, hk, rfl⟩ := List.mem_map.mp hmem
  have hback := (hoursBack_hourBack hday (List.mem_range.mp hk)).2
  have hplace := hback.place
  have hsecond := now.hourStart.bounds.2.2.1
  have hnano := now.hourStart.bounds.2.2.2
  have hsame : now.hourStart.day = now.day := rfl
  rw [Instant.place_eq, Instant.place_eq] at hplace
  rw [StatsKey.hourly_eq_iff, Bool.and_eq_true, beq_iff_eq,
    Instant.covers_hour_iff hback.hour (by omega)]
  exact and_congr_right fun _ => and_congr eq_comm eq_comm

theorem daily_eq_iff_covers {today day : Int} (hfirst : Instant.leastDay + 7 ≤ today)
    (hlast : today < Instant.greatestDay) (hmem : day ∈ lastDays today) (a b : String)
    (t : Instant) : StatsKey.daily a (Date.ofDay day) = StatsKey.daily b t.date ↔
      (a == b && (Date.ofDay day).covers t) = true := by
  rw [lastDays_eq hfirst] at hmem
  obtain ⟨k, hk, rfl⟩ := List.mem_map.mp hmem
  have hk := List.mem_range.mp hk
  rw [Instant.date, StatsKey.daily_eq_iff, Bool.and_eq_true, beq_iff_eq,
    Date.covers_ofDay_iff (by omega) (by omega)]
  exact and_congr_right fun _ => eq_comm

end Places

end Monitoring

namespace Simulation.World

open Monitoring

variable {w next : World} {m : Monitoring} {store : StoreRef} {key kind : String}

theorem mapM_read_counters {memory : Memory} (hlegible : memory.Legible Counter)
    (keys : List String) :
    ∃ counters, (keys.map (Document.idFor Counter)).mapM (memory.read Counter) = .ok counters ∧
      counters.map (fun c => (c.map (·.value)).getD 0) = keys.map memory.tally := by
  induction keys with
  | nil => exact ⟨[], rfl, rfl⟩
  | cons key rest ih =>
      obtain ⟨counters, hcounters, hvalues⟩ := ih
      obtain ⟨c, hread, hvalue⟩ : ∃ c, memory.read Counter (Document.idFor Counter key) = .ok c ∧
          (c.map (·.value)).getD 0 = memory.tally key := by
        unfold Memory.read Memory.tally
        cases hfound : memory.find? (Document.idFor Counter key) with
        | none => exact ⟨none, rfl, rfl⟩
        | some d =>
            obtain ⟨c, hc⟩ := Option.isSome_iff_exists.mp (hlegible _ d hfound rfl)
            refine ⟨some c, ?_, ?_⟩
            · simp only [Stored.decode, hc]
              rfl
            · rw [Option.bind_some, hc]
              rfl
      refine ⟨c :: counters, ?_, ?_⟩
      · rw [List.map_cons, List.mapM_cons, hread, hcounters]
        rfl
      · rw [List.map_cons, List.map_cons, hvalue, hvalues]

theorem run_counterValues {ρ : Type} (hcalm : w.Calm) (hkeyed : (w.memory m.store).Keyed)
    (hlegible : (w.memory m.store).Legible Counter) (places : List ρ) (key : ρ → String) :
    ∃ after, w.run (m.counterValues (places.map key)).run =
      (.ok (places.map fun place => (w.memory m.store).tally (key place)), after) := by
  obtain ⟨counters, hcounters, hvalues⟩ := mapM_read_counters hlegible (places.map key)
  have hreads := (readsFrom_of_mirrors hcalm hkeyed
    (Session.mirrors_of_empty (s := Session.empty m.store true) rfl)).loadMany Counter
      ((places.map key).map (Document.idFor Counter))
  obtain ⟨after, hloaded⟩ : ∃ after, w.run (m.alone (Work.loadMany Counter
      ((places.map key).map (Document.idFor Counter)))).run = (.ok counters, after) := by
    unfold Monitoring.alone
    rw [Work.run_alone, run_bind]
    exact ⟨_, Prod.ext (hreads.trans hcounters) rfl⟩
  refine ⟨after, ?_⟩
  unfold Monitoring.counterValues
  rw [run_action_bind hloaded, hvalues, List.map_map]
  rfl

theorem run_byHour (hcalm : w.Calm) (hkeyed : (w.memory m.store).Keyed)
    (hlegible : (w.memory m.store).Legible Counter) (kind : String) :
    (w.run (m.byHour kind).run).1 = .ok (counted (lastHours w.clock) fun h =>
      (w.memory m.store).tally (StatsKey.hourly kind h)) := by
  obtain ⟨after, hvalues⟩ := run_counterValues hcalm hkeyed hlegible
    (lastHours w.clock) (StatsKey.hourly kind)
  unfold Monitoring.byHour
  rw [run_action_bind (show w.run Action.now.run = (.ok w.clock, w) from rfl),
    run_action_bind hvalues, ← List.map_prod_left_eq_zip]
  rfl

theorem run_byDay (hcalm : w.Calm) (hkeyed : (w.memory m.store).Keyed)
    (hlegible : (w.memory m.store).Legible Counter) (kind : String) :
    (w.run (m.byDay kind).run).1 = .ok (counted ((lastDays w.clock.day).map Date.ofDay) fun d =>
      (w.memory m.store).tally (StatsKey.daily kind d)) := by
  obtain ⟨after, hvalues⟩ := run_counterValues hcalm hkeyed hlegible
    ((lastDays w.clock.day).map Date.ofDay) (StatsKey.daily kind)
  unfold Monitoring.byDay
  rw [run_action_bind (show w.run Action.now.run = (.ok w.clock, w) from rfl),
    run_action_bind hvalues, ← List.map_prod_left_eq_zip]
  rfl

/-- A transaction that was built in some world to raise one counter is committed here. -/
def Counts (w : World) (store : StoreRef) (key : String) (next : World) : Prop :=
  ∃ built routing length t committed, Calm built ∧
    (built.run ((Step.addToCounter key 1 length).start (.start store routing))).1 = (.ok (), t) ∧
    w.run (Step.commit.start t) = ((.ok (), committed), next)

structure Counted (w : World) (store : StoreRef) (key : String) (next : World) : Prop where
  calm : next.Calm
  clock : next.clock = w.clock
  keyed : (next.memory store).Keyed
  legible : (next.memory store).Legible Counter
  tally : ∀ other, (next.memory store).tally other =
    if other = key then (w.memory store).tally other + 1 else (w.memory store).tally other

theorem Counts.counted (h : w.Counts store key next) (hcalm : w.Calm)
    (hkeyed : (w.memory store).Keyed) (hlegible : (w.memory store).Legible Counter)
    (hroom : (w.memory store).tally key < Json.greatest64) : w.Counted store key next := by
  obtain ⟨built, routing, length, t, committed, hbuilt, hstep, hcommit⟩ := h
  obtain ⟨rfl, hraises⟩ := raises_addToCounter hbuilt hstep
  cases hmemory : (w.memory t.session.store).commit t.session.batch with
  | error e =>
      obtain ⟨_, _, hfailed, _⟩ := run_commit_error hcalm hmemory
      cases hcommit.symm.trans hfailed
  | ok raised =>
      obtain ⟨_, _, hdone, hfollows⟩ := run_commit hcalm hmemory
      cases hcommit.symm.trans hdone
      exact {
        calm := hfollows.calm hcalm
        clock := hfollows.clock
        keyed := hfollows.memory ▸ hkeyed.commit hmemory
        legible := hfollows.memory ▸ hraises.legible hmemory hlegible hroom
        tally := hfollows.memory ▸ hraises.tally hmemory hlegible hroom }

theorem run_byHour_raised {p : Instant → Bool} (hcalm : w.Calm) (hkeyed : (w.memory m.store).Keyed)
    (hlegible : (w.memory m.store).Legible Counter) (hnext : w.Counted m.store key next)
    (hraised : ∀ h ∈ lastHours w.clock, StatsKey.hourly kind h = key ↔ p h = true) :
    (next.run (m.byHour kind).run).1 = (w.run (m.byHour kind).run).1.map (raisedAt p) := by
  rw [run_byHour hnext.calm hnext.keyed hnext.legible, run_byHour hcalm hkeyed hlegible,
    hnext.clock]
  apply congrArg Except.ok
  apply counted_raised
  intro h hmem
  rw [hnext.tally]
  exact if_congr (hraised h hmem) rfl rfl

theorem run_byDay_raised {p : Date → Bool} (hcalm : w.Calm) (hkeyed : (w.memory m.store).Keyed)
    (hlegible : (w.memory m.store).Legible Counter) (hnext : w.Counted m.store key next)
    (hraised : ∀ day ∈ lastDays w.clock.day,
      StatsKey.daily kind (Date.ofDay day) = key ↔ p (Date.ofDay day) = true) :
    (next.run (m.byDay kind).run).1 = (w.run (m.byDay kind).run).1.map (raisedAt p) := by
  rw [run_byDay hnext.calm hnext.keyed hnext.legible, run_byDay hcalm hkeyed hlegible, hnext.clock]
  apply congrArg Except.ok
  apply counted_raised
  intro d hmem
  obtain ⟨day, hday, rfl⟩ := List.mem_map.mp hmem
  rw [hnext.tally]
  exact if_congr (hraised day hday) rfl rfl

theorem raisedAt_never {ρ : Type} (report : Except StoreError (List (ρ × Int))) :
    report.map (raisedAt fun _ => false) = report := by
  cases report with
  | error e => rfl
  | ok entries => exact congrArg Except.ok (List.map_id entries)

/-- What is reported of the last hours and days, and what a count changes in it: the entry of the
hour or day in which the point of time of the count lies, if it is one of the reported. -/
theorem reports_count (hcalm : w.Calm) (hkeyed : (w.memory m.store).Keyed)
    (hlegible : (w.memory m.store).Legible Counter) (hfirst : Instant.leastYear < w.clock.date.year)
    (hlast : w.clock.date.year < Instant.greatestYear) :
    (∀ kind,
      (∃ report, (w.run (m.byHour kind).run).1 = .ok report ∧
        HourReport w.clock (fun h => (w.memory m.store).tally (StatsKey.hourly kind h)) report) ∧
      ∃ report, (w.run (m.byDay kind).run).1 = .ok report ∧
        DayReport w.clock (fun d => (w.memory m.store).tally (StatsKey.daily kind d)) report) ∧
    (∀ written t next, w.Counts m.store (StatsKey.hourly written t) next →
      (w.memory m.store).tally (StatsKey.hourly written t) < Json.greatest64 → ∀ kind,
        (next.run (m.byHour kind).run).1 = (w.run (m.byHour kind).run).1.map
          (raisedAt fun h => kind == written && h.covers Instant.hourLength t) ∧
        (next.run (m.byDay kind).run).1 = (w.run (m.byDay kind).run).1) ∧
    (∀ written t next, w.Counts m.store (StatsKey.daily written t.date) next →
      (w.memory m.store).tally (StatsKey.daily written t.date) < Json.greatest64 → ∀ kind,
        (next.run (m.byDay kind).run).1 = (w.run (m.byDay kind).run).1.map
          (raisedAt fun d => kind == written && d.covers t) ∧
        (next.run (m.byHour kind).run).1 = (w.run (m.byHour kind).run).1) ∧
    ∀ a b day t, StatsKey.daily a (Date.ofDay day) ≠ StatsKey.hourly b t := by
  obtain ⟨hleast, hgreatest⟩ := Instant.day_of_year hfirst hlast
  have hfirst : Instant.leastDay + 7 ≤ w.clock.day := by omega
  have hday : Instant.leastDay < w.clock.day := by omega
  have hlast : w.clock.day < Instant.greatestDay := by omega
  refine ⟨fun kind => ⟨⟨_, run_byHour hcalm hkeyed hlegible kind, hourReport hday _⟩,
    _, run_byDay hcalm hkeyed hlegible kind, dayReport hfirst _⟩, ?_, ?_,
    fun a b => StatsKey.daily_ne_hourly⟩
  · intro written t next hcounts hroom kind
    have hnext := hcounts.counted hcalm hkeyed hlegible hroom
    constructor
    · exact run_byHour_raised hcalm hkeyed hlegible hnext fun h hmem =>
        hourly_eq_iff_covers hday hlast hmem kind written t
    · rw [run_byDay_raised (p := fun _ => false) hcalm hkeyed hlegible hnext, raisedAt_never]
      intro day _
      exact iff_of_false (StatsKey.daily_ne_hourly day t) Bool.false_ne_true
  · intro written t next hcounts hroom kind
    have hnext := hcounts.counted hcalm hkeyed hlegible hroom
    constructor
    · exact run_byDay_raised hcalm hkeyed hlegible hnext fun day hmem =>
        daily_eq_iff_covers hfirst hlast hmem kind written t
    · rw [run_byHour_raised (p := fun _ => false) hcalm hkeyed hlegible hnext, raisedAt_never]
      intro h _
      exact iff_of_false (StatsKey.daily_ne_hourly t.day h).symm Bool.false_ne_true

namespace Sample

def monitoring : Monitoring := ⟨⟨0⟩, .single ⟨⟨0⟩, ⟨0⟩, ⟨0⟩, ⟨0⟩⟩⟩

/-- The end of a leap second, just before the new year. -/
def yearEnd : Instant := ⟨-1, 86399, 1999999999, by decide⟩

end Sample

theorem reports_count_yearEnd :
    ∃ next, (start .origin).Counts ⟨0⟩ (StatsKey.hourly "failed" Sample.yearEnd) next ∧
      ((next.run (Sample.monitoring.byHour "failed").run).1.map fun report => report.drop 22) =
        .ok [(⟨-1, 82800, 0, by decide⟩, 1), (.origin, 0)] := by
  have hlegible : ((start .origin).memory Sample.monitoring.store).Legible Counter := by
    intro id d hfound
    cases hfound
  have hkeyed : ((start .origin).memory Sample.monitoring.store).Keyed := by
    intro id d hfound
    cases hfound
  obtain ⟨next, hcounts⟩ :
      ∃ next, (start .origin).Counts ⟨0⟩ (StatsKey.hourly "failed" Sample.yearEnd) next :=
    ⟨_, start .origin, Sample.monitoring.routing, none, _, _, ⟨rfl, rfl⟩, rfl, rfl⟩
  obtain ⟨-, hhourly, -⟩ := reports_count ⟨rfl, rfl⟩ hkeyed hlegible (by decide) (by decide)
  refine ⟨next, hcounts, ?_⟩
  rw [(hhourly "failed" Sample.yearEnd next hcounts (by decide) "failed").1,
    run_byHour ⟨rfl, rfl⟩ hkeyed hlegible]
  rfl

end Simulation.World

end Jobyard
