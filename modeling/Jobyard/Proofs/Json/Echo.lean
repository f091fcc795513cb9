import Jobyard.Json.Embedded
import Jobyard.Proofs.Document.Spelling
import Jobyard.Proofs.Json.Quoted
import Jobyard.Proofs.Json.Traversal
import Jobyard.Proofs.Json.Whole

/-!
What the compact text of a value is read as. The reader gives the value back, except for objects
that begin with the name that is kept for embedded texts: those are read as the text says, if it is
their only member, and otherwise not at all.
-/

namespace Jobyard

namespace Json

instance (members : List (String × Json)) : Decidable (Entries.Sorted members) :=
  inferInstanceAs (Decidable (List.Pairwise _ members))

/-- Neither a double nor a whole number outside the kept range, and the members in order. -/
def isRegular : Json → Bool
  | .int n => decide (leastInt ≤ n ∧ n ≤ greatestInt)
  | .double _ => false
  | .obj members => decide (Entries.Sorted members)
  | _ => true

def beginsWith (name : String) : Json → Bool
  | .obj ((first, _) :: _) => first == name
  | _ => false

/-- An object that stands for itself, or a value of another kind. -/
def isLiteral (e : Option Embedding) (v : Json) : Bool :=
  !e.any fun embedding => v.beginsWith embedding.name

theorem eq_of_not_isLiteral {e : Option Embedding} {members : List (String × Json)}
    (h : isLiteral e (.obj members) = false) :
    ∃ embedding value rest, e = some embedding ∧ members = (embedding.name, value) :: rest := by
  cases e with
  | none => cases h
  | some embedding =>
      cases members with
      | nil => cases h
      | cons first rest =>
          obtain ⟨name, value⟩ := first
          have hname : name = embedding.name := by simpa [isLiteral, beginsWith] using h
          exact ⟨embedding, value, rest, rfl, by rw [hname]⟩

def present? (members : List (String × Option Json)) : Option (List (String × Json)) :=
  members.mapM fun member => member.2.map fun value => (member.1, value)

/-- What the text of a value is read as. -/
def echo (e : Option Embedding) : Json → Option Json :=
  Traversal.run {
    leaf := some
    items := fun _ echoes => (echoes.mapM id).map .arr
    members := fun members echoes =>
      if isLiteral e (.obj members) then (present? echoes).map object
      else
        match members with
        | [(_, .str text)] => e.bind fun embedding => embedding.read text
        | _ => none }

variable {e : Option Embedding}

theorem echo_arr (items : List Json) :
    echo e (.arr items) = (items.mapM (echo e)).map .arr := by
  refine (Traversal.run_arr _ items).trans ?_
  simp only [List.mapM_map]
  rfl

theorem echo_items_after (done : List Json) (first : Json) (rest : List Json) :
    ((first :: rest).mapM (echo e)).map (fun items => arr (done.reverse ++ items)) =
      (echo e first).bind fun value => (rest.mapM (echo e)).map fun items =>
        arr ((value :: done).reverse ++ items) := by
  rw [List.mapM_cons]
  cases echo e first with
  | none => rfl
  | some value => cases rest.mapM (echo e) <;> simp

def echoMembers (e : Option Embedding) (members : List (String × Json)) :
    Option (List (String × Json)) :=
  members.mapM fun member => (echo e member.2).map fun value => (member.1, value)

theorem echoMembers_cons (name : String) (value : Json) (rest : List (String × Json)) :
    echoMembers e ((name, value) :: rest) =
      (echo e value).bind fun echoed => (echoMembers e rest).map ((name, echoed) :: ·) := by
  unfold echoMembers
  rw [List.mapM_cons]
  cases echo e value with
  | none => rfl
  | some echoed =>
      cases rest.mapM fun member => (echo e member.2).map fun value => (member.1, value) <;> rfl

theorem echoMembers_nil : echoMembers e [] = some [] := rfl

theorem echoMembers_after (done : List (String × Json)) (name : String) (first : Json)
    (rest : List (String × Json)) :
    (echoMembers e ((name, first) :: rest)).map
        (fun members => object (done.reverse ++ members)) =
      (echo e first).bind fun value => (echoMembers e rest).map fun members =>
        object (((name, value) :: done).reverse ++ members) := by
  rw [echoMembers_cons]
  cases echo e first with
  | none => rfl
  | some value => cases echoMembers e rest <;> simp

theorem echo_obj {members : List (String × Json)} (h : isLiteral e (.obj members) = true) :
    echo e (.obj members) = (echoMembers e members).map object := by
  refine (Traversal.run_obj _ members).trans ?_
  simp only [h, if_true, present?, List.mapM_map]
  rfl

theorem echo_embedded {embedding : Embedding} (text : String) :
    echo (some embedding) (.obj [(embedding.name, .str text)]) = embedding.read text := by
  refine (Traversal.run_obj _ _).trans ?_
  simp [isLiteral, beginsWith]

theorem echo_embedded_none {embedding : Embedding} {value : Json}
    {rest : List (String × Json)} (h : ∀ text, value = .str text → rest ≠ []) :
    echo (some embedding) (.obj ((embedding.name, value) :: rest)) = none := by
  refine (Traversal.run_obj _ _).trans ?_
  simp only [isLiteral, Option.any_some, beginsWith, beq_self_eq_true, Bool.not_true,
    Bool.false_eq_true, if_false]
  split
  · rename_i hmembers
    cases hmembers
    exact absurd rfl (h _ rfl)
  · rfl

end Json

namespace Json.Reading

variable {e : Option Embedding} {limit : Nat} {frames outer : List Frame} {v : Json} {r : Reading}

/-- A state in which a value has been read to its end. -/
inductive Holds (frames : List Frame) (v : Json) : Reading → Prop
  | after : Holds frames v ⟨frames, .after v⟩
  | word : Holds frames v ⟨frames, .word [] v⟩
  | number {written : List Char} (h : readNumber? written.reverse = some v) :
      Holds frames v ⟨frames, .number written⟩

theorem Holds.step? (h : Holds frames v r) {c : Char} (hc : isNumberChar c = false) :
    step? e limit r c = proceed? e frames v c := by
  cases h with
  | after => rfl
  | word => rfl
  | number hread => simp [Reading.step?, hc, hread]

theorem Holds.finish? (h : Holds [] v r) : r.finish? = some v := by
  cases h with
  | after => rfl
  | word => rfl
  | number hread => exact hread

/-- Characters that lead to a value, or to no state. -/
def Leads (e : Option Embedding) (limit : Nat) (r : Reading) (cs : List Char)
    (frames : List Frame) : Option Json → Prop
  | some v => ∃ next, cs.foldlM (Reading.step? e limit) r = some next ∧ Holds frames v next
  | none => cs.foldlM (Reading.step? e limit) r = none

section Leads

variable {result : Option Json} {cs more : List Char} {next : Reading}

theorem Leads.append (hfirst : cs.foldlM (Reading.step? e limit) r = some next)
    (h : Leads e limit next more frames result) : Leads e limit r (cs ++ more) frames result := by
  have hwhole : (cs ++ more).foldlM (Reading.step? e limit) r =
      more.foldlM (Reading.step? e limit) next := by
    rw [List.foldlM_append, hfirst]
    rfl
  cases result with
  | none => exact hwhole.trans h
  | some v =>
      obtain ⟨last, hlast, hholds⟩ := h
      exact ⟨last, hwhole.trans hlast, hholds⟩

theorem Leads.cons {c : Char} (hfirst : Reading.step? e limit r c = some next)
    (h : Leads e limit next more frames result) : Leads e limit r (c :: more) frames result := by
  have hone : [c].foldlM (Reading.step? e limit) r = some next := by simp [hfirst]
  exact Leads.append hone h

theorem Leads.bind {f : Json → Option Json} (h : Leads e limit r cs frames result)
    (hmore : ∀ v next, Holds frames v next → Leads e limit next more outer (f v)) :
    Leads e limit r (cs ++ more) outer (result.bind f) := by
  cases result with
  | none =>
      change (cs ++ more).foldlM (Reading.step? e limit) r = none
      rw [List.foldlM_append, show cs.foldlM _ r = none from h]
      rfl
  | some v =>
      obtain ⟨next, hnext, hholds⟩ := h
      exact Leads.append hnext (hmore v next hholds)

theorem leads_none {c : Char} (h : Reading.step? e limit r c = none) :
    Leads e limit r (c :: more) frames none := by
  change (c :: more).foldlM (Reading.step? e limit) r = none
  rw [List.foldlM_cons, h]
  rfl

end Leads

theorem step?_openItems (h : frames.length < limit) {orClose : Bool} :
    Reading.step? e limit ⟨frames, .value orClose⟩ '[' =
      some ⟨.items [] :: frames, .value true⟩ := by
  cases orClose <;> exact if_neg (Nat.not_le.mpr h)

theorem step?_openMembers (h : frames.length < limit) {orClose : Bool} :
    Reading.step? e limit ⟨frames, .value orClose⟩ '\x7b' = some ⟨frames, .name [] true⟩ := by
  cases orClose <;> exact if_neg (Nat.not_le.mpr h)

/-- A value whose text is read as its echo, wherever a value may come. -/
def Echoes (e : Option Embedding) (limit : Nat) (v : Json) : Prop :=
  ∀ (frames : List Frame) (orClose : Bool), v.depth + frames.length ≤ limit →
    Leads e limit ⟨frames, .value orClose⟩ v.chars frames (v.echo e)

theorem leads_items {first : Json} {rest : List Json}
    (hechoes : ∀ item ∈ first :: rest, Echoes e limit item)
    (hdepth : ∀ item ∈ first :: rest, item.depth + (outer.length + 1) ≤ limit)
    (done : List Json) (orClose : Bool) :
    Leads e limit ⟨.items done :: outer, .value orClose⟩ (first.chars ++ moreItems rest) outer
      (((first :: rest).mapM (echo e)).map fun items => .arr (done.reverse ++ items)) := by
  induction rest generalizing first done orClose with
  | nil =>
      rw [echo_items_after]
      apply (hechoes first List.mem_cons_self (.items done :: outer) orClose
        (hdepth first List.mem_cons_self)).bind
      intro value next hholds
      have hclose : Reading.step? e limit next ']' =
          some ⟨outer, .after (.arr (value :: done).reverse)⟩ := by
        rw [hholds.step? rfl]
        rfl
      apply Leads.cons hclose
      rw [List.mapM_nil, Option.pure_def, Option.map_some, List.append_nil]
      exact ⟨_, rfl, .after⟩
  | cons second rest ih =>
      rw [echo_items_after]
      apply (hechoes first List.mem_cons_self (.items done :: outer) orClose
        (hdepth first List.mem_cons_self)).bind
      intro value next hholds
      have hcomma : Reading.step? e limit next ',' =
          some ⟨.items (value :: done) :: outer, .value false⟩ := by
        rw [hholds.step? rfl]
        rfl
      apply Leads.cons hcomma
      apply ih
      · exact fun item hitem => hechoes item (List.mem_cons_of_mem first hitem)
      · exact fun item hitem => hdepth item (List.mem_cons_of_mem first hitem)

theorem leads_members {name : String} {first : Json} {rest : List (String × Json)}
    (hechoes : ∀ member ∈ (name, first) :: rest, Echoes e limit member.2)
    (hdepth : ∀ member ∈ (name, first) :: rest, member.2.depth + (outer.length + 1) ≤ limit)
    (done : List (String × Json)) :
    Leads e limit ⟨.members done name :: outer, .value false⟩
      (first.chars ++ moreMembers rest) outer
      ((echoMembers e ((name, first) :: rest)).map fun members =>
        object (done.reverse ++ members)) := by
  induction rest generalizing name first done with
  | nil =>
      rw [echoMembers_after]
      apply (hechoes _ List.mem_cons_self (.members done name :: outer) false
        (hdepth _ List.mem_cons_self)).bind
      intro value next hholds
      have hclose : Reading.step? e limit next '\x7d' =
          some ⟨outer, .after (object ((name, value) :: done).reverse)⟩ := by
        rw [hholds.step? rfl]
        rfl
      apply Leads.cons hclose
      rw [echoMembers_nil, Option.map_some, List.append_nil]
      exact ⟨_, rfl, .after⟩
  | cons second rest ih =>
      obtain ⟨key, second⟩ := second
      rw [echoMembers_after]
      apply (hechoes _ List.mem_cons_self (.members done name :: outer) false
        (hdepth _ List.mem_cons_self)).bind
      intro value next hholds
      have hcomma : Reading.step? e limit next ',' =
          some ⟨outer, .name ((name, value) :: done) false⟩ := by
        rw [hholds.step? rfl]
        rfl
      apply Leads.cons hcomma
      change Leads e limit _ ((quoted key ++ ':' :: second.chars) ++ moreMembers rest) outer _
      rw [List.append_assoc, List.cons_append]
      apply Leads.append (foldlM_quoted_name _ key)
      -- Behind the first member no name stands for an embedded text.
      have hcolon : Reading.step? e limit ⟨outer, .colon ((name, value) :: done) key⟩ ':' =
          some ⟨.members ((name, value) :: done) key :: outer, .value false⟩ := rfl
      apply Leads.cons hcolon
      apply ih
      · exact fun member hmember => hechoes member (List.mem_cons_of_mem _ hmember)
      · exact fun member hmember => hdepth member (List.mem_cons_of_mem _ hmember)

theorem echoes_arr {items : List Json} (hechoes : ∀ item ∈ items, Echoes e limit item) :
    Echoes e limit (.arr items) := by
  intro frames orClose hdepth
  obtain ⟨hopen, hdepths⟩ := depth_arr_le hdepth
  rw [echo_arr]
  cases items with
  | nil => exact Leads.cons (step?_openItems hopen) ⟨_, rfl, .after⟩
  | cons first rest =>
      exact Leads.cons (step?_openItems hopen) (leads_items hechoes hdepths [] true)

theorem echoes_obj {members : List (String × Json)}
    (hechoes : ∀ member ∈ members, Echoes e limit member.2)
    (hliteral : isLiteral e (.obj members) = true) : Echoes e limit (.obj members) := by
  intro frames orClose hdepth
  obtain ⟨hopen, hdepths⟩ := depth_obj_le hdepth
  rw [echo_obj hliteral]
  cases members with
  | nil => exact Leads.cons (step?_openMembers hopen) ⟨_, rfl, .after⟩
  | cons first rest =>
      obtain ⟨name, value⟩ := first
      have hcolon : Reading.step? e limit ⟨frames, .colon [] name⟩ ':' =
          some ⟨.members [] name :: frames, .value false⟩ := by
        have hother : (e.any fun embedding => embedding.name == name) = false := by
          cases e with
          | none => rfl
          | some embedding =>
              have hne : (name == embedding.name) = false := by
                simpa [isLiteral, beginsWith] using hliteral
              exact BEq.comm.trans hne
        simp [Reading.step?, isSpace, hother]
      refine Leads.cons (step?_openMembers hopen) ?_
      change Leads e limit _ ((quoted name ++ ':' :: value.chars) ++ moreMembers rest) frames _
      rw [List.append_assoc, List.cons_append]
      exact Leads.append (foldlM_quoted_name _ name)
        (Leads.cons hcolon (leads_members hechoes hdepths []))

theorem chars_of_not_str {value : Json} (h : value.isRegular = true)
    (hstr : ∀ text, value ≠ .str text) :
    ∃ c cs, value.chars = c :: cs ∧ c ≠ '"' ∧ isSpace c = false := by
  cases value with
  | str text => exact absurd rfl (hstr text)
  | null => exact ⟨'n', _, rfl, by decide, rfl⟩
  | bool b => cases b <;> exact ⟨_, _, rfl, by decide, rfl⟩
  | double x => cases h
  | int n =>
      obtain ⟨first, rest, htext, hfirst, _⟩ := toString_eq_cons n
      refine ⟨first, rest, htext, ?_⟩
      rcases hfirst with rfl | hdigit
      · exact ⟨by decide, rfl⟩
      · exact ⟨ne_of_isDigit hdigit _ rfl, isSpace_of_isDigit hdigit⟩
  | arr items => cases items <;> exact ⟨_, _, rfl, by decide, rfl⟩
  | obj members => cases members <;> exact ⟨_, _, rfl, by decide, rfl⟩

theorem echoes_embedded {embedding : Embedding} {value : Json} {rest : List (String × Json)}
    (hvalue : value.isRegular = true) :
    Echoes (some embedding) limit (.obj ((embedding.name, value) :: rest)) := by
  intro frames orClose hdepth
  obtain ⟨hopen, _⟩ := depth_obj_le hdepth
  have hcolon : Reading.step? (some embedding) limit ⟨frames, .colon [] embedding.name⟩ ':' =
      some ⟨.embedded :: frames, .quoted⟩ := by
    simp [Reading.step?, isSpace]
  refine Leads.cons (step?_openMembers hopen) ?_
  change Leads _ limit _ ((quoted embedding.name ++ ':' :: value.chars) ++ moreMembers rest)
    frames _
  rw [List.append_assoc, List.cons_append]
  refine Leads.append (foldlM_quoted_name _ embedding.name) (Leads.cons hcolon ?_)
  by_cases hstr : ∃ text, value = .str text
  · obtain ⟨text, rfl⟩ := hstr
    cases rest with
    | nil =>
        rw [echo_embedded]
        refine Leads.append (foldlM_quoted_only text) ?_
        cases hread : embedding.read text with
        | none => exact leads_none (by simp [Reading.step?, proceed?, isSpace, str?, hread])
        | some read =>
            refine ⟨⟨frames, .after read⟩, ?_, .after⟩
            change (Reading.step? _ limit _ '\x7d').bind _ = _
            simp [Reading.step?, proceed?, isSpace, str?, hread]
    | cons second more =>
        rw [echo_embedded_none fun _ _ => List.cons_ne_nil second more]
        exact Leads.append (foldlM_quoted_only text) (leads_none rfl)
  · obtain ⟨c, cs, hchars, hquote, hspace⟩ :=
      chars_of_not_str hvalue fun text heq => hstr ⟨text, heq⟩
    rw [echo_embedded_none fun text heq => absurd ⟨text, heq⟩ hstr, hchars]
    refine leads_none ?_
    simp [Reading.step?, hquote, hspace]

theorem echoes {v : Json} (h : v.all isRegular = true) : Echoes e limit v := by
  induction v using Json.induct with
  | null =>
      intro frames orClose _
      cases orClose <;> exact ⟨_, rfl, .word⟩
  | bool value =>
      intro frames orClose _
      cases value <;> cases orClose <;> exact ⟨_, rfl, .word⟩
  | int n =>
      obtain ⟨hleast, hgreatest⟩ : leastInt ≤ n ∧ n ≤ greatestInt := of_decide_eq_true (of_all h)
      intro frames orClose _
      refine ⟨_, foldlM_toString n, .number ?_⟩
      rw [List.reverse_reverse]
      exact readNumber?_toString hleast hgreatest
  | double x => cases of_all h
  | str text =>
      intro frames orClose _
      exact ⟨_, foldlM_quoted text, .after⟩
  | arr items ih =>
      exact echoes_arr fun item hitem => ih item hitem ((all_arr.mp h).2 item hitem)
  | obj members ih =>
      have hmembers := (all_obj.mp h).2
      cases hliteral : isLiteral e (.obj members) with
      | true =>
          exact echoes_obj (fun member hmember => ih member hmember (hmembers member hmember))
            hliteral
      | false =>
          obtain ⟨embedding, value, rest, rfl, rfl⟩ := eq_of_not_isLiteral hliteral
          exact echoes_embedded (of_all (hmembers _ List.mem_cons_self))

end Json.Reading

namespace Json

variable {e : Option Embedding} {limit : Nat} {v : Json}

theorem readWith?_render (h : v.all isRegular = true) (hdepth : v.depth ≤ limit) :
    readWith? e limit v.render = v.echo e := by
  have hleads := Reading.echoes (e := e) h [] false hdepth
  unfold readWith? render Reading.start
  rw [String.toList_ofList]
  cases hecho : v.echo e with
  | none =>
      rw [hecho] at hleads
      rw [show List.foldlM _ _ _ = none from hleads]
      rfl
  | some echoed =>
      rw [hecho] at hleads
      obtain ⟨next, hnext, hholds⟩ := hleads
      rw [hnext]
      exact hholds.finish?

theorem mapM_eq_self_iff {α : Type} {f : α → Option α} {xs : List α} :
    xs.mapM f = some xs ↔ ∀ x ∈ xs, f x = some x := by
  induction xs with
  | nil => simp
  | cons x rest ih =>
      rw [List.forall_mem_cons, ← ih, List.mapM_cons]
      cases f x with
      | none => simp
      | some y => cases rest.mapM f <;> simp

theorem object_of_sorted {members : List (String × Json)} (h : Entries.Sorted members) :
    object members = obj members := by
  have hsame : Entries.ofList members = members := Entries.foldl_insert_of_sorted h
  exact congrArg obj hsame

theorem names_of_echoMembers {members echoed : List (String × Json)}
    (h : echoMembers e members = some echoed) : echoed.map Prod.fst = members.map Prod.fst := by
  induction members generalizing echoed with
  | nil =>
      cases h
      rfl
  | cons first rest ih =>
      obtain ⟨name, value⟩ := first
      rw [echoMembers_cons] at h
      obtain ⟨read, _, hrest⟩ := Option.bind_eq_some_iff.mp h
      obtain ⟨others, hothers, rfl⟩ := Option.map_eq_some_iff.mp hrest
      exact congrArg (name :: ·) (ih hothers)

theorem sorted_of_names {members others : List (String × Json)}
    (h : others.map Prod.fst = members.map Prod.fst) (hsorted : Entries.Sorted members) :
    Entries.Sorted others := by
  have hnames : (others.map Prod.fst).Pairwise fun a b => compare a b = .lt := by
    rw [h]
    exact List.pairwise_map.mpr hsorted
  exact List.pairwise_map.mp hnames

/-- Exactly the values in which every object stands for itself are read back, if no text is read as
the object that holds it. -/
theorem echo_eq_self_iff (h : v.all isRegular = true)
    (hread : ∀ embedding ∈ e, ∀ text,
      embedding.read text ≠ some (.obj [(embedding.name, .str text)])) :
    v.echo e = some v ↔ v.all (isLiteral e) = true := by
  induction v using Json.induct with
  | null => exact iff_of_true rfl (by cases e <;> rfl)
  | bool value => exact iff_of_true rfl (by cases e <;> rfl)
  | int n => exact iff_of_true rfl (by cases e <;> rfl)
  | double x => cases of_all h
  | str text => exact iff_of_true rfl (by cases e <;> rfl)
  | arr items ih =>
      have hliteral : isLiteral e (.arr items) = true := by cases e <;> rfl
      have hitems : (items.mapM (echo e)).map arr = some (arr items) ↔
          items.mapM (echo e) = some items := by
        cases items.mapM (echo e) <;> simp
      rw [echo_arr, hitems, mapM_eq_self_iff, all_arr]
      simp only [hliteral, true_and]
      exact forall₂_congr fun item hitem => ih item hitem ((all_arr.mp h).2 item hitem)
  | obj members ih =>
      obtain ⟨hregular, hmembers⟩ := all_obj.mp h
      have hsorted : Entries.Sorted members := of_decide_eq_true hregular
      cases hliteral : isLiteral e (.obj members) with
      | true =>
          have hself : (echoMembers e members).map object = some (obj members) ↔
              echoMembers e members = some members := by
            constructor
            · intro hecho
              obtain ⟨echoed, hechoed, hobject⟩ := Option.map_eq_some_iff.mp hecho
              rw [object_of_sorted (sorted_of_names (names_of_echoMembers hechoed) hsorted)]
                at hobject
              cases hobject
              exact hechoed
            · intro hechoed
              rw [hechoed, Option.map_some, object_of_sorted hsorted]
          rw [echo_obj hliteral, hself, all_obj]
          simp only [hliteral, true_and]
          unfold echoMembers
          rw [mapM_eq_self_iff]
          refine forall₂_congr fun member hmember => ?_
          rw [← ih member hmember (hmembers member hmember)]
          cases member.2.echo e <;> simp [Prod.ext_iff]
      | false =>
          obtain ⟨embedding, value, rest, rfl, rfl⟩ := eq_of_not_isLiteral hliteral
          refine iff_of_false ?_ fun hall => ?_
          · by_cases htext : ∃ text, value = .str text ∧ rest = []
            · obtain ⟨text, rfl, rfl⟩ := htext
              rw [echo_embedded]
              exact hread embedding rfl text
            · rw [echo_embedded_none fun text hvalue hrest => htext ⟨text, hvalue, hrest⟩]
              exact fun hnone => nomatch hnone
          · cases hliteral.symm.trans (of_all hall)

end Json

end Jobyard
