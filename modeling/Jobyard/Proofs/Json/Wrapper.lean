import Jobyard.Json.Embedded
import Jobyard.Proofs.Dict
import Mathlib.Tactic.SplitIfs

/-!
No text is read as an object whose only member has the name that is kept for embedded texts. An
object that is read as one begins with another name, whatever names follow.
-/

namespace Jobyard.Json

def Wraps (kept : String) (v : Json) : Prop := ∃ value, v = .obj [(kept, value)]

theorem not_wraps_object {kept : String} {members : List (String × Json)} {member : String × Json}
    (hmember : member ∈ members) (hname : member.1 ≠ kept) : ¬ Wraps kept (object members) := by
  rintro ⟨value, hobject⟩
  have hentries : Entries.ofList members = [(kept, value)] := Json.obj.inj hobject
  have hfound := Entries.find?_ofList member.1 members
  have hcompare : compare member.1 kept ≠ .eq := fun h => hname (Std.compare_eq_iff_eq.mp h)
  have hnone : Entries.find? member.1 [(kept, value)] = none := by
    unfold Entries.find?
    split
    · rename_i heq
      exact absurd heq hcompare
    · rfl
  rw [hentries, hnone] at hfound
  have hother := List.lookup_eq_none_iff.mp hfound.symm member (List.mem_reverse.mpr hmember)
  simp at hother

theorem not_wraps_number {kept : String} {cs : List Char} {v : Json}
    (h : readNumber? cs = some v) : ¬ Wraps kept v := by
  rintro ⟨value, rfl⟩
  obtain ⟨numeral, _, hvalue⟩ := Option.bind_eq_some_iff.mp h
  have hdouble : ∀ significand exponent,
      numeral.double? significand exponent ≠ some (.obj [(kept, value)]) := by
    intro significand exponent hdouble
    obtain ⟨x, _, hx⟩ := Option.map_eq_some_iff.mp hdouble
    cases hx
  unfold Numeral.value? at hvalue
  simp only at hvalue
  split_ifs at hvalue
  · cases hvalue
  · cases hvalue
  · exact hdouble _ _ hvalue
  · exact hdouble _ _ hvalue

/-- Of the names so far, the newest first, the oldest is not the kept one. -/
def Opened (kept : String) (names : List String) : Prop := names.getLast? ≠ some kept

theorem Opened.cons {kept : String} {names : List String} (h : Opened kept names) {name : String}
    (hfirst : names = [] → name ≠ kept) : Opened kept (name :: names) := by
  unfold Opened
  cases names with
  | nil =>
      intro hname
      exact hfirst rfl (Option.some.inj hname)
  | cons other rest =>
      rw [List.getLast?_cons_cons]
      exact h

theorem not_wraps_members {kept : String} {members : List (String × Json)}
    (h : Opened kept (members.map Prod.fst)) (hne : members ≠ []) :
    ¬ Wraps kept (object members.reverse) := by
  have hlast := List.getLast?_eq_some_getLast hne
  apply not_wraps_object (List.mem_reverse.mpr (List.getLast_mem hne))
  intro hname
  apply h
  rw [List.getLast?_map, hlast, Option.map_some, hname]

def Frame.Sound (kept : String) : Frame → Prop
  | .members done name => Opened kept (name :: done.map Prod.fst)
  | _ => True

def Stage.Sound (kept : String) : Stage → Prop
  | .name done _ => Opened kept (done.map Prod.fst)
  | .nameText done _ => Opened kept (done.map Prod.fst)
  | .colon done _ => Opened kept (done.map Prod.fst)
  | .word _ v => ¬ Wraps kept v
  | .after v => ¬ Wraps kept v
  | _ => True

namespace Reading

/-- No object so far begins with the kept name. -/
structure Sound (kept : String) (r : Reading) : Prop where
  frames : ∀ frame ∈ r.frames, frame.Sound kept
  stage : r.stage.Sound kept

variable {kept : String} {e : Embedding} {limit : Nat} {frames : List Frame} {r next : Reading}
  {v : Json} {c : Char}

theorem opened_nil : Opened kept [] := fun h => nomatch h

theorem sound_begin? (hframes : ∀ frame ∈ frames, frame.Sound kept)
    (h : begin? limit frames c = some next) : next.Sound kept := by
  unfold begin? at h
  split_ifs at h
  all_goals cases h
  · exact ⟨hframes, trivial⟩
  · exact ⟨hframes, trivial⟩
  · exact ⟨hframes, fun ⟨_, hwraps⟩ => nomatch hwraps⟩
  · exact ⟨hframes, fun ⟨_, hwraps⟩ => nomatch hwraps⟩
  · exact ⟨hframes, fun ⟨_, hwraps⟩ => nomatch hwraps⟩
  · exact ⟨List.forall_mem_cons.mpr ⟨trivial, hframes⟩, trivial⟩
  · exact ⟨hframes, opened_nil⟩

theorem sound_proceed? (hread : ∀ text value, e.read text = some value → ¬ Wraps kept value)
    (hframes : ∀ frame ∈ frames, frame.Sound kept) (hv : ¬ Wraps kept v)
    (h : proceed? (some e) frames v c = some next) : next.Sound kept := by
  unfold proceed? at h
  split at h
  · cases h
    exact ⟨hframes, hv⟩
  · cases frames with
    | nil => cases h
    | cons frame outer =>
        obtain ⟨hframe, houter⟩ := List.forall_mem_cons.mp hframes
        cases frame with
        | items done =>
            simp only at h
            split_ifs at h
            · cases h
              exact ⟨List.forall_mem_cons.mpr ⟨trivial, houter⟩, trivial⟩
            · cases h
              exact ⟨houter, fun ⟨_, hwraps⟩ => nomatch hwraps⟩
        | members done name =>
            simp only at h
            split_ifs at h
            · cases h
              exact ⟨houter, hframe⟩
            · cases h
              exact ⟨houter, not_wraps_members hframe (List.cons_ne_nil (name, v) done)⟩
        | embedded =>
            simp only at h
            split_ifs at h
            obtain ⟨text, _, hrest⟩ := Option.bind_eq_some_iff.mp h
            obtain ⟨_, hembedding, hrest⟩ := Option.bind_eq_some_iff.mp hrest
            cases hembedding
            obtain ⟨value, hvalue, hnext⟩ := Option.bind_eq_some_iff.mp hrest
            cases hnext
            exact ⟨houter, hread text value hvalue⟩

theorem sound_step? (hread : ∀ text value, e.read text = some value → ¬ Wraps e.name value)
    (hsound : r.Sound e.name) (h : step? (some e) limit r c = some next) : next.Sound e.name := by
  obtain ⟨frames, stage⟩ := r
  obtain ⟨hframes, hstage⟩ := hsound
  cases stage with
  | value orClose =>
      simp only [step?] at h
      split_ifs at h
      · cases h
        exact ⟨hframes, trivial⟩
      · cases h
        exact ⟨fun frame hframe => hframes frame (List.mem_of_mem_drop hframe),
          fun ⟨_, hwraps⟩ => nomatch hwraps⟩
      · exact sound_begin? hframes h
  | quoted =>
      simp only [step?] at h
      split_ifs at h
      · cases h
        exact ⟨hframes, trivial⟩
      · cases h
        exact ⟨hframes, trivial⟩
  | name done orClose =>
      simp only [step?] at h
      split_ifs at h
      · cases h
        exact ⟨hframes, hstage⟩
      · cases h
        exact ⟨hframes, fun ⟨_, hwraps⟩ => nomatch hwraps⟩
      · cases h
        exact ⟨hframes, hstage⟩
  | text q =>
      simp only [step?] at h
      split at h
      · cases h
        exact ⟨hframes, fun ⟨_, hwraps⟩ => nomatch hwraps⟩
      · obtain ⟨_, _, rfl⟩ := Option.map_eq_some_iff.mp h
        exact ⟨hframes, trivial⟩
  | nameText done q =>
      simp only [step?] at h
      split at h
      · cases h
        exact ⟨hframes, hstage⟩
      · obtain ⟨_, _, rfl⟩ := Option.map_eq_some_iff.mp h
        exact ⟨hframes, hstage⟩
  | colon done name =>
      simp only [step?] at h
      split_ifs at h with _ _ hkept
      · cases h
        exact ⟨hframes, hstage⟩
      · cases h
        exact ⟨List.forall_mem_cons.mpr ⟨trivial, hframes⟩, trivial⟩
      · cases h
        refine ⟨List.forall_mem_cons.mpr ⟨hstage.cons fun hnil heq => hkept ?_, hframes⟩, trivial⟩
        rw [List.map_eq_nil_iff.mp hnil, heq]
        simp
  | number written =>
      simp only [step?] at h
      split at h
      · cases h
        exact ⟨hframes, trivial⟩
      · obtain ⟨value, hvalue, hnext⟩ := Option.bind_eq_some_iff.mp h
        exact sound_proceed? hread hframes (not_wraps_number hvalue) hnext
  | word rest value =>
      cases rest with
      | nil => exact sound_proceed? hread hframes hstage h
      | cons expected rest =>
          simp only [step?] at h
          split_ifs at h
          cases h
          exact ⟨hframes, hstage⟩
  | after value => exact sound_proceed? hread hframes hstage h

theorem sound_foldlM (hread : ∀ text value, e.read text = some value → ¬ Wraps e.name value)
    {cs : List Char} (hsound : r.Sound e.name)
    (h : cs.foldlM (step? (some e) limit) r = some next) : next.Sound e.name := by
  induction cs generalizing r with
  | nil =>
      cases h
      exact hsound
  | cons c rest ih =>
      rw [List.foldlM_cons] at h
      obtain ⟨middle, hstep, hrest⟩ := Option.bind_eq_some_iff.mp h
      exact ih (sound_step? hread hsound hstep) hrest

theorem not_wraps_finish? (hsound : r.Sound kept) (h : r.finish? = some v) : ¬ Wraps kept v := by
  obtain ⟨frames, stage⟩ := r
  have hstage := hsound.stage
  cases frames with
  | cons frame outer => cases h
  | nil =>
      cases stage with
      | number written => exact not_wraps_number h
      | word rest value =>
          cases rest with
          | nil =>
              cases h
              exact hstage
          | cons expected rest => cases h
      | after value =>
          cases h
          exact hstage
      | _ => cases h

end Reading

theorem not_wraps_of_readWith? {e : Embedding} {limit : Nat} {text : String} {v : Json}
    (hread : ∀ text value, e.read text = some value → ¬ Wraps e.name value)
    (h : readWith? (some e) limit text = some v) : ¬ Wraps e.name v := by
  obtain ⟨last, hrun, hfinish⟩ := Option.bind_eq_some_iff.mp h
  have hstart : Reading.start.Sound e.name := {
    frames := fun _ hframe => nomatch hframe
    stage := trivial }
  exact Reading.not_wraps_finish? (Reading.sound_foldlM hread hstart hrun) hfinish

theorem not_wraps_of_parseLevels? {levels limit : Nat} {text : String} {v : Json}
    (h : parseLevels? levels limit text = some v) : ¬ Wraps embeddedName v := by
  induction levels generalizing limit text v with
  | zero => cases h
  | succ levels ih =>
      exact not_wraps_of_readWith? (e := ⟨embeddedName, parseLevels? levels depthLimit⟩)
        (fun _ _ hvalue => ih hvalue) h

end Jobyard.Json
