import Jobyard.Document.Job
import Jobyard.Proofs.Json.Echo
import Jobyard.Proofs.Json.Wrapper

/-!
Calls survive being stored, with their arguments of any kind but doubles. An argument in which an
object begins with the name that is kept for embedded texts does not.
-/

namespace Jobyard

namespace Json

theorem parsePlain?_ofTexts (texts : List String) :
    (parsePlain? (ofTexts texts).render).bind (listOf? str?) = some texts := by
  have hall : ∀ p : Json → Bool, p (ofTexts texts) = true → (∀ text, p (.str text) = true) →
      (ofTexts texts).all p = true := by
    intro p harr hstr
    refine all_arr.mpr ⟨harr, fun item hitem => ?_⟩
    obtain ⟨text, _, rfl⟩ := List.mem_map.mp hitem
    exact hstr text
  have hdepth : (ofTexts texts).depth ≤ depthLimit := by
    unfold ofTexts
    rw [depth_arr]
    refine Nat.succ_le_succ ((foldr_max_le depth _).mpr fun item hitem => ?_)
    obtain ⟨text, _, rfl⟩ := List.mem_map.mp hitem
    exact Nat.zero_le _
  have hregular := hall isRegular rfl fun _ => rfl
  have hecho : (ofTexts texts).echo none = some (ofTexts texts) :=
    (echo_eq_self_iff hregular fun _ hembedding => absurd hembedding (Option.not_mem_none _)).mpr
      (hall (isLiteral none) rfl fun _ => rfl)
  unfold parsePlain?
  rw [readWith?_render hregular hdepth, hecho]
  exact listOf?_arr fun _ _ => rfl

def embedding (items : List Json) : Embedding :=
  ⟨embeddedName, parseLevels? (arr items).render.length depthLimit⟩

theorem parseItems?_render {items : List Json}
    (hregular : ∀ item ∈ items, item.all isRegular = true)
    (hdepth : ∀ item ∈ items, item.depth < depthLimit) :
    parseItems? (arr items).render = items.mapM (echo (some (embedding items))) := by
  have hopen : ((arr items).render.toList.dropWhile isSpace).head? = some '[' := by
    unfold render
    rw [String.toList_ofList]
    cases items <;> rfl
  have hwhole : (arr items).depth ≤ depthLimit := by
    rw [depth_arr]
    exact Nat.succ_le_of_lt (Nat.lt_succ_of_le ((foldr_max_le depth _).mpr fun item hitem =>
      Nat.le_of_lt_succ (hdepth item hitem)))
  have hread : parse? (arr items).render =
      (items.mapM (echo (some (embedding items)))).map arr := by
    unfold parse? parseWithin? parseLevels?
    rw [← echo_arr]
    exact readWith?_render (all_arr.mpr ⟨rfl, hregular⟩) hwhole
  unfold parseItems?
  rw [if_pos hopen, hread]
  cases items.mapM (echo (some (embedding items))) <;> rfl

theorem mapM_echo_eq_self_iff {items : List Json}
    (hregular : ∀ item ∈ items, item.all isRegular = true) :
    items.mapM (echo (some (embedding items))) = some items ↔
      ∀ item ∈ items, (item.all fun v => !v.beginsWith embeddedName) = true := by
  rw [mapM_eq_self_iff]
  refine forall₂_congr fun item hitem => echo_eq_self_iff (hregular item hitem) ?_
  intro _ hembedding text hread
  cases hembedding
  exact not_wraps_of_parseLevels? hread ⟨_, rfl⟩

theorem length_of_mapM {α β : Type} {f : α → Option β} {xs : List α} {ys : List β}
    (h : xs.mapM f = some ys) : ys.length = xs.length := by
  induction xs generalizing ys with
  | nil =>
      cases h
      rfl
  | cons x rest ih =>
      rw [List.mapM_cons] at h
      obtain ⟨y, _, hrest⟩ := Option.bind_eq_some_iff.mp h
      obtain ⟨others, hothers, hys⟩ := Option.bind_eq_some_iff.mp hrest
      cases hys
      exact congrArg (· + 1) (ih hothers)

end Json

namespace InvocationData

open Json

theorem decode_ofInvocation (i : Invocation)
    (hregular : ∀ v ∈ i.arguments, v.all isRegular = true)
    (hdepth : ∀ v ∈ i.arguments, v.depth < depthLimit) :
    (ofInvocation i).decode =
      if i.typeName = "" ∨ i.method = "" then .error .namelessInvocation
      else
        match i.arguments.mapM (echo (some (embedding i.arguments))) with
        | none => .error .shape
        | some arguments =>
          if i.parameterTypes.length = arguments.length then
            .ok { i with arguments := arguments }
          else .error (.argumentCount i.parameterTypes.length arguments.length) := by
  unfold decode ofInvocation
  simp only [parsePlain?_ofTexts, parseItems?_render hregular hdepth]
  cases i.arguments.mapM (echo (some (embedding i.arguments))) <;> rfl

theorem decode_eq_ok_iff (i : Invocation) (hregular : ∀ v ∈ i.arguments, v.all isRegular = true)
    (hdepth : ∀ v ∈ i.arguments, v.depth < depthLimit) :
    (ofInvocation i).decode = .ok i ↔
      (i.typeName ≠ "" ∧ i.method ≠ "" ∧ i.parameterTypes.length = i.arguments.length) ∧
        i.arguments.mapM (echo (some (embedding i.arguments))) = some i.arguments := by
  rw [decode_ofInvocation i hregular hdepth]
  split
  · rename_i hname
    refine iff_of_false (fun hok => nomatch hok) ?_
    rintro ⟨⟨htype, hmethod, -⟩, -⟩
    exact hname.elim htype hmethod
  · rename_i hname
    obtain ⟨htype, hmethod⟩ := not_or.mp hname
    cases hread : i.arguments.mapM (echo (some (embedding i.arguments))) with
    | none => exact iff_of_false (fun hok => nomatch hok) fun hread => nomatch hread.2
    | some arguments =>
        have hlength := length_of_mapM hread
        simp only [hlength]
        split
        · rename_i hequal
          constructor
          · intro hok
            exact ⟨⟨htype, hmethod, hequal⟩,
              congrArg some (congrArg Invocation.arguments (Except.ok.inj hok))⟩
          · rintro ⟨-, hsame⟩
            rw [Option.some.inj hsame]
        · rename_i hdifferent
          exact iff_of_false (fun hok => nomatch hok) fun hread => hdifferent hread.1.2.2

theorem decode_error (i : Invocation) (hregular : ∀ v ∈ i.arguments, v.all isRegular = true)
    (hdepth : ∀ v ∈ i.arguments, v.depth < depthLimit)
    (h : ¬ (i.typeName ≠ "" ∧ i.method ≠ "" ∧ i.parameterTypes.length = i.arguments.length)) :
    ∃ e, (ofInvocation i).decode = .error e := by
  rw [decode_ofInvocation i hregular hdepth]
  split
  · exact ⟨_, rfl⟩
  · rename_i hname
    obtain ⟨htype, hmethod⟩ := not_or.mp hname
    cases hread : i.arguments.mapM (echo (some (embedding i.arguments))) with
    | none => exact ⟨_, rfl⟩
    | some arguments =>
        have hlength := length_of_mapM hread
        have hdifferent : i.parameterTypes.length ≠ i.arguments.length := fun hequal =>
          h ⟨htype, hmethod, hequal⟩
        simp only [hlength, if_neg hdifferent]
        exact ⟨_, rfl⟩

/-- A stored call is read back if it has a type and a method, as many arguments as parameters, and
no object in its arguments that begins with the kept name. Without the first three it is not read
at all. -/
theorem decode_ofInvocation_iff (i : Invocation)
    (hregular : ∀ v ∈ i.arguments, v.all isRegular = true)
    (hdepth : ∀ v ∈ i.arguments, v.depth ≤ 126) :
    ((ofInvocation i).decode = .ok i ↔
      (i.typeName ≠ "" ∧ i.method ≠ "" ∧ i.parameterTypes.length = i.arguments.length) ∧
        ∀ v ∈ i.arguments, (v.all fun w => !w.beginsWith embeddedName) = true) ∧
    (¬ (i.typeName ≠ "" ∧ i.method ≠ "" ∧ i.parameterTypes.length = i.arguments.length) →
      ∃ e, (ofInvocation i).decode = .error e) := by
  have hopen : ∀ v ∈ i.arguments, v.depth < depthLimit := fun v hv =>
    Nat.lt_succ_of_le (hdepth v hv)
  refine ⟨?_, decode_error i hregular hopen⟩
  rw [decode_eq_ok_iff i hregular hopen, mapM_echo_eq_self_iff hregular]

namespace Sample

/-- The greatest whole number, quotes, a control character and, behind another name, the kept
one. -/
def call : Invocation where
  typeName := "Console"
  method := "WriteLine"
  parameterTypes := ["System.String", "System.Object"]
  arguments :=
    [.str "\"\x01\u00e9\\", .obj [(" ", .arr [.int greatestInt, .null]), (embeddedName, .int (-1))]]

/-- An argument that begins with the kept name. -/
def wrapped : Invocation where
  typeName := "T"
  method := "m"
  parameterTypes := ["x"]
  arguments := [.obj [(embeddedName, .str "1"), ("a", .int 2)]]

end Sample

theorem decode_ofInvocation_call :
    (∀ v ∈ Sample.call.arguments, v.all isRegular = true) ∧
      (∀ v ∈ Sample.call.arguments, v.depth ≤ 126) ∧
      (ofInvocation Sample.call).decode = .ok Sample.call := by
  have hregular : ∀ v ∈ Sample.call.arguments, v.all isRegular = true := by decide
  have hdepth : ∀ v ∈ Sample.call.arguments, v.depth ≤ 126 := by decide
  refine ⟨hregular, hdepth, (decode_ofInvocation_iff Sample.call hregular hdepth).1.mpr ?_⟩
  exact ⟨⟨by decide, by decide, rfl⟩, by decide⟩

theorem decode_ofInvocation_wrapped :
    (∀ v ∈ Sample.wrapped.arguments, v.all isRegular = true ∧ v.depth ≤ 126) ∧
      (Sample.wrapped.typeName ≠ "" ∧ Sample.wrapped.method ≠ "" ∧
        Sample.wrapped.parameterTypes.length = Sample.wrapped.arguments.length) ∧
      (ofInvocation Sample.wrapped).decode = .error .shape := by
  have hargument : ∀ v ∈ Sample.wrapped.arguments, v.all isRegular = true ∧ v.depth ≤ 126 := by
    decide
  refine ⟨hargument, ⟨by decide, by decide, rfl⟩, ?_⟩
  rw [decode_ofInvocation _ (fun v hv => (hargument v hv).1)
    fun v hv => Nat.lt_succ_of_le (hargument v hv).2]
  rfl

end InvocationData

end Jobyard
