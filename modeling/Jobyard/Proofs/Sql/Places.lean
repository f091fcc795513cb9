import Jobyard.Proofs.Sql.Transcript

/-!
Statements of queries. Their texts follow from the shape of a query alone, with one numbered place
for each value that is sent along; names and values of the query are among these and nowhere else.
-/

namespace Jobyard

inductive ConditionShape
  | equals
  | oneOf (count : Nat)
  | isNull
  | notNull
  | before
deriving DecidableEq

def Condition.shape : Condition → ConditionShape
  | .equals _ => .equals
  | .oneOf values => .oneOf values.length
  | .isNull => .isNull
  | .notNull => .notNull
  | .before _ => .before

/-- A query without its names and values. -/
structure QueryShape where
  conditions : List ConditionShape
  order : Order
  takes : Bool
  skips : Bool
deriving DecidableEq

def Query.shape (q : Query) : QueryShape where
  conditions := q.filters.map (·.condition.shape)
  order := q.order
  takes := q.take.isSome
  skips := q.skip ≠ 0

namespace Sql

/-- The values of a filter: its path before each value it compares with, or its path alone. -/
def filterValues (f : Filter) : List Param :=
  match f.condition with
  | .equals value => [.texts f.path, .json value.render]
  | .oneOf values => values.flatMap fun value => [.texts f.path, .json value.render]
  | .isNull => [.texts f.path]
  | .notNull => [.texts f.path]
  | .before time => [.texts f.path, .ofInstant time]

def conditionValues (q : Query) : List Param :=
  .text q.collection :: q.filters.flatMap filterValues

def pageValues (q : Query) : List Param :=
  (q.take.toList.map fun n => .int (signed64 n)) ++
    if q.skip = 0 then [] else [.int (signed64 q.skip)]

def placesIn : List Char → List (List Char)
  | [] => []
  | c :: rest =>
    if c = '$' then rest.takeWhile Char.isDigit :: placesIn rest else placesIn rest

def numbered (first count : Nat) : List (List Char) :=
  (List.range' first count).map (Nat.toDigits 10)

section Places

theorem placesIn_append {front rest : List Char} (hfront : '$' ∉ front) :
    placesIn (front ++ rest) = placesIn rest := by
  induction front with
  | nil => rfl
  | cons c front ih =>
      obtain ⟨hc, hmore⟩ := not_or.mp (mt List.mem_cons.mpr hfront)
      rw [List.cons_append, placesIn, if_neg (Ne.symm hc)]
      exact ih hmore

theorem placesIn_place {n : Nat} {rest : List Char} (hrest : rest.head?.all (!·.isDigit)) :
    placesIn ('$' :: (Nat.toDigits 10 n ++ rest)) = Nat.toDigits 10 n :: placesIn rest := by
  have hdigits : ∀ c ∈ Nat.toDigits 10 n, c.isDigit = true := fun c hc =>
    Nat.isDigit_of_mem_toDigits (by decide) (by decide) hc
  have hnone : rest.takeWhile Char.isDigit = [] := by
    cases rest with
    | nil => rfl
    | cons c rest =>
        have hc : c.isDigit = false := by simpa using hrest
        rw [List.takeWhile_cons, hc]
        rfl
  have hdollar : '$' ∉ Nat.toDigits 10 n := fun hmem => nomatch hdigits _ hmem
  rw [placesIn, if_pos rfl, List.takeWhile_append_of_pos hdigits, hnone, List.append_nil,
    placesIn_append hdollar]

end Places

namespace Piece

/-- Without a place, and with nothing that lengthens the number of a place before it. -/
def isPlain : Piece → Bool
  | .text written => written.toList.all (· ≠ '$') && written.toList.head?.all (!·.isDigit)
  | .value _ => true

def outline : Piece → Option String
  | .text written => some written
  | .value _ => none

end Piece

namespace Statement

def places (s : Statement) : List (List Char) := placesIn s.text.toList

variable {pieces others : List Piece}

theorem textFrom_append (next : Nat) (pieces others : List Piece) :
    textFrom next (pieces ++ others) =
      textFrom next pieces ++ textFrom (next + (valuesOf pieces).length) others := by
  induction pieces generalizing next with
  | nil => simp [textFrom, valuesOf]
  | cons piece rest ih =>
      cases piece with
      | text written =>
          simp only [List.cons_append, textFrom, ih, String.append_assoc]
          rfl
      | value param =>
          simp only [List.cons_append, textFrom, ih, String.append_assoc]
          have hlength : (valuesOf (.value param :: rest)).length = (valuesOf rest).length + 1 :=
            rfl
          rw [hlength, Nat.add_assoc, Nat.add_comm 1]

theorem textFrom_of_outline (next : Nat)
    (h : pieces.map Piece.outline = others.map Piece.outline) :
    textFrom next pieces = textFrom next others := by
  induction pieces generalizing others next with
  | nil =>
      cases others with
      | nil => rfl
      | cons _ _ => cases h
  | cons piece rest ih =>
      cases others with
      | nil => cases h
      | cons other others =>
          obtain ⟨hpiece, hrest⟩ := List.cons.inj h
          cases piece with
          | text written =>
              cases other with
              | value _ => cases hpiece
              | text _ =>
                  cases hpiece
                  exact congrArg (written ++ ·) (ih next hrest)
          | value param =>
              cases other with
              | text _ => cases hpiece
              | value _ => exact congrArg ("$" ++ toString next ++ ·) (ih (next + 1) hrest)

theorem head?_textFrom (next : Nat) (hplain : pieces.all Piece.isPlain) :
    (textFrom next pieces).toList.head?.all (!·.isDigit) := by
  induction pieces with
  | nil => rfl
  | cons piece rest ih =>
      obtain ⟨hpiece, hrest⟩ := Bool.and_eq_true_iff.mp hplain
      cases piece with
      | value param => simp [textFrom]
      | text written =>
          have hfirst := (Bool.and_eq_true_iff.mp hpiece).2
          simp only [textFrom, String.toList_append]
          cases htext : written.toList with
          | nil => exact ih hrest
          | cons c cs =>
              rw [htext] at hfirst
              exact hfirst

theorem placesIn_textFrom (next : Nat) (hplain : pieces.all Piece.isPlain) :
    placesIn (textFrom next pieces).toList = numbered next (valuesOf pieces).length := by
  induction pieces generalizing next with
  | nil => rfl
  | cons piece rest ih =>
      obtain ⟨hpiece, hrest⟩ := Bool.and_eq_true_iff.mp hplain
      cases piece with
      | text written =>
          have hdollar : '$' ∉ written.toList := fun hmem => by
            simpa using List.all_eq_true.mp (Bool.and_eq_true_iff.mp hpiece).1 _ hmem
          simp only [textFrom, String.toList_append]
          rw [placesIn_append hdollar]
          exact ih next hrest
      | value param =>
          have htext : (textFrom next (.value param :: rest)).toList =
              '$' :: (Nat.toDigits 10 next ++ (textFrom (next + 1) rest).toList) := by
            simp [textFrom]
          rw [htext, placesIn_place (head?_textFrom _ hrest), ih _ hrest]
          rfl

theorem places_ofPieces (hplain : pieces.all Piece.isPlain) :
    (ofPieces pieces).places = numbered 1 (ofPieces pieces).params.length :=
  placesIn_textFrom 1 hplain

theorem valuesOf_append (pieces others : List Piece) :
    valuesOf (pieces ++ others) = valuesOf pieces ++ valuesOf others :=
  List.filterMap_append

theorem outline_flatMap {α : Type} {pieces : α → List Piece} {shape : α → ConditionShape}
    (hpieces : ∀ x y, shape x = shape y →
      (pieces x).map Piece.outline = (pieces y).map Piece.outline)
    {xs ys : List α} (h : xs.map shape = ys.map shape) :
    (xs.flatMap pieces).map Piece.outline = (ys.flatMap pieces).map Piece.outline := by
  induction xs generalizing ys with
  | nil =>
      cases ys with
      | nil => rfl
      | cons _ _ => cases h
  | cons x xs ih =>
      cases ys with
      | nil => cases h
      | cons y ys =>
          obtain ⟨hfirst, hrest⟩ := List.cons.inj h
          rw [List.flatMap_cons, List.flatMap_cons, List.map_append, List.map_append,
            hpieces x y hfirst, ih hrest]

section Alternatives

variable (path : List String) (values : List Json)

theorem isPlain_alternatives : (alternatives path values).all Piece.isPlain := by
  fun_induction alternatives path values with
  | case1 => rfl
  | case2 => rfl
  | case3 value rest _ ih => exact ih

theorem valuesOf_alternatives :
    valuesOf (alternatives path values) =
      values.flatMap fun value => [.texts path, .json value.render] := by
  fun_induction alternatives path values with
  | case1 => rfl
  | case2 => rfl
  | case3 value rest _ ih =>
      exact congrArg (fun more => .texts path :: .json value.render :: more) ih

theorem outline_alternatives (other : List String) {others : List Json}
    (h : values.length = others.length) :
    (alternatives path values).map Piece.outline =
      (alternatives other others).map Piece.outline := by
  induction values generalizing others with
  | nil =>
      rw [List.eq_nil_of_length_eq_zero h.symm]
      rfl
  | cons value rest ih =>
      obtain ⟨value', rest', rfl⟩ := List.exists_cons_of_length_eq_add_one h.symm
      have hrest := Nat.succ.inj h
      -- The last comparison has no `OR` after it.
      cases rest with
      | nil =>
          rw [List.eq_nil_of_length_eq_zero hrest.symm]
          rfl
      | cons second more =>
          obtain ⟨second', more', rfl⟩ := List.exists_cons_of_length_eq_add_one hrest.symm
          exact congrArg (_ :: none :: _ :: none :: some " OR " :: ·) (ih hrest)

end Alternatives

section Filters

theorem isPlain_filterPieces (f : Filter) : (filterPieces f).all Piece.isPlain := by
  obtain ⟨path, condition⟩ := f
  cases condition with
  | oneOf values =>
      cases values with
      | nil => rfl
      | cons value rest =>
          have hinner := isPlain_alternatives path (value :: rest)
          rw [filterPieces, List.all_cons, List.all_append, hinner]
          rfl
  | _ => rfl

theorem valuesOf_filterPieces (f : Filter) : valuesOf (filterPieces f) = filterValues f := by
  obtain ⟨path, condition⟩ := f
  cases condition with
  | oneOf values =>
      cases values with
      | nil => rfl
      | cons value rest =>
          refine (valuesOf_append (alternatives path (value :: rest)) [.text ")"]).trans ?_
          rw [valuesOf_alternatives]
          exact List.append_nil _
  | _ => rfl

theorem outline_filterPieces (f g : Filter) (h : f.condition.shape = g.condition.shape) :
    (filterPieces f).map Piece.outline = (filterPieces g).map Piece.outline := by
  obtain ⟨path, condition⟩ := f
  obtain ⟨path', condition'⟩ := g
  cases condition with
  | equals =>
      cases condition' with
      | equals => rfl
      | _ => cases h
  | oneOf values =>
      cases condition' with
      | oneOf values' =>
          have hlength : values.length = values'.length := ConditionShape.oneOf.inj h
          have hinner := outline_alternatives path values path' hlength
          cases values with
          | nil =>
              rw [List.eq_nil_of_length_eq_zero hlength.symm]
              rfl
          | cons value rest =>
              obtain ⟨value', rest', rfl⟩ := List.exists_cons_of_length_eq_add_one hlength.symm
              simp only [filterPieces, List.map_cons, List.map_append, hinner]
      | _ => cases h
  | isNull =>
      cases condition' with
      | isNull => rfl
      | _ => cases h
  | notNull =>
      cases condition' with
      | notNull => rfl
      | _ => cases h
  | before =>
      cases condition' with
      | before => rfl
      | _ => cases h

end Filters

section Parts

variable (q : Query)

theorem isPlain_conditionPieces : (conditionPieces q).all Piece.isPlain := by
  have hfilters : (q.filters.flatMap filterPieces).all Piece.isPlain := by
    rw [List.all_flatMap]
    exact List.all_eq_true.mpr fun f _ => isPlain_filterPieces f
  rw [conditionPieces, List.all_cons, List.all_cons, hfilters]
  rfl

theorem valuesOf_conditionPieces : valuesOf (conditionPieces q) = conditionValues q := by
  have hfilters : valuesOf (q.filters.flatMap filterPieces) = q.filters.flatMap filterValues :=
    List.filterMap_flatMap.trans (congrArg q.filters.flatMap (funext valuesOf_filterPieces))
  exact congrArg (.text q.collection :: ·) hfilters

theorem isPlain_orderPieces (order : Order) : (orderPieces order).all Piece.isPlain := by
  cases order <;> rfl

theorem valuesOf_orderPieces (order : Order) : valuesOf (orderPieces order) = [] := by
  cases order <;> rfl

theorem isPlain_pagePieces : (pagePieces q).all Piece.isPlain := by
  obtain ⟨_, _, _, skip, take⟩ := q
  cases take <;> cases skip <;> rfl

theorem valuesOf_pagePieces : valuesOf (pagePieces q) = pageValues q := by
  obtain ⟨_, _, _, skip, take⟩ := q
  cases take <;> cases skip <;> rfl

theorem outline_pagePieces :
    (pagePieces q).map Piece.outline =
      (if q.shape.takes then [some " LIMIT ", none] else []) ++
        if q.shape.skips then [some " OFFSET ", none] else [] := by
  obtain ⟨_, _, _, skip, take⟩ := q
  cases take <;> cases skip <;> rfl

variable {q} {other : Query} (h : q.shape = other.shape)
include h

theorem outline_conditionPieces :
    (conditionPieces q).map Piece.outline = (conditionPieces other).map Piece.outline := by
  have hconditions := congrArg QueryShape.conditions h
  exact congrArg (some " WHERE collection = " :: none :: ·)
    (outline_flatMap outline_filterPieces hconditions)

theorem text_count_of_shape : (count q).text = (count other).text :=
  textFrom_of_outline 1 (congrArg (_ :: ·) (outline_conditionPieces h))

theorem text_query_of_shape : (query q).text = (query other).text := by
  have horder : q.order = other.order := congrArg QueryShape.order h
  refine textFrom_of_outline 1 ?_
  simp only [List.map_cons, List.map_append, outline_conditionPieces h, outline_pagePieces, horder,
    h]

end Parts

section Whole

variable (q : Query)

theorem params_count : (count q).params = conditionValues q := valuesOf_conditionPieces q

theorem params_query : (query q).params = conditionValues q ++ pageValues q := by
  refine (valuesOf_append (conditionPieces q ++ orderPieces q.order) (pagePieces q)).trans ?_
  rw [valuesOf_append, valuesOf_conditionPieces, valuesOf_orderPieces, valuesOf_pagePieces,
    List.append_nil]

theorem places_count : (count q).places = numbered 1 (count q).params.length :=
  places_ofPieces (isPlain_conditionPieces q)

theorem places_query : (query q).places = numbered 1 (query q).params.length := by
  refine places_ofPieces ?_
  rw [List.all_cons, List.all_append, List.all_append, isPlain_conditionPieces,
    isPlain_orderPieces, isPlain_pagePieces]
  rfl

def clause : String := textFrom 1 (conditionPieces q)

theorem exists_clause : ∃ conditions, clause q = " WHERE collection = $1" ++ conditions := by
  have hfirst : " WHERE collection = " ++ ("$" ++ toString 1) = " WHERE collection = $1" := by
    decide
  refine ⟨textFrom (1 + 1) (q.filters.flatMap filterPieces), ?_⟩
  rw [clause, conditionPieces, textFrom, textFrom, ← String.append_assoc, hfirst]

theorem text_count : (count q).text = "SELECT COUNT(*) AS total FROM documents" ++ clause q := rfl

theorem exists_text_query :
    ∃ page, (query q).text =
      "SELECT id, body, etag, sequence, expires_at FROM documents" ++
        (clause q ++ (" ORDER BY sequence " ++ page)) := by
  have htext : (query q).text = "SELECT id, body, etag, sequence, expires_at FROM documents" ++
      textFrom 1 (conditionPieces q ++ (orderPieces q.order ++ pagePieces q)) := by
    rw [← List.append_assoc]
    rfl
  have horder : ∃ page, textFrom (1 + (valuesOf (conditionPieces q)).length)
      (orderPieces q.order ++ pagePieces q) = " ORDER BY sequence " ++ page := by
    rw [textFrom_append]
    cases q.order with
    | oldestFirst => exact ⟨"ASC" ++ _, String.append_assoc⟩
    | newestFirst => exact ⟨"DESC" ++ _, String.append_assoc⟩
  obtain ⟨page, hpage⟩ := horder
  refine ⟨page, htext.trans ?_⟩
  rw [textFrom_append, hpage, clause]

end Whole

end Statement

namespace Talk

def Asks {α : Type} (talk : Talk α) (s : Statement) : Prop :=
  ∀ said, (∃ result, Held talk.run said result) ↔ ∃ reply, said = [⟨.fetch s, reply⟩]

theorem asks_of_run {α : Type} {talk : Talk α} {s : Statement}
    {next : Except Failure (List Row) → Dialogue (Except StoreError α)}
    (hrun : talk.run = .call (.fetch s) next)
    (hnext : ∀ reply, ∃ result, next reply = .done result) : Asks talk s := by
  intro said
  rw [hrun]
  constructor
  · rintro ⟨result, hheld⟩
    obtain ⟨reply, rest, rfl, hrest⟩ := held_call_iff.mp hheld
    obtain ⟨value, hvalue⟩ := hnext reply
    rw [hvalue] at hrest
    obtain ⟨rfl, -⟩ := held_done_iff.mp hrest
    exact ⟨reply, rfl⟩
  · rintro ⟨reply, rfl⟩
    obtain ⟨value, hvalue⟩ := hnext reply
    exact ⟨value, held_call_iff.mpr ⟨reply, [], rfl, hvalue ▸ .done value⟩⟩

section Valid

variable {q : Query} (hvalid : q.validate = .ok ())
include hvalid

theorem asks_query : Asks (query q) (.query q) := by
  have hrun : query q =
      fetch .query (.query q) >>= fun rows => ofExcept (rows.mapM Row.document) := by
    unfold query
    rw [hvalid]
    rfl
  rw [hrun]
  refine asks_of_run rfl fun reply => ?_
  cases reply with
  | error failure => exact ⟨_, rfl⟩
  | ok rows => exact ⟨_, rfl⟩

theorem asks_count : Asks (count q) (.count q) := by
  have hrun : count q = fetchOne .count (.count q) >>= fun row => ofExcept row.total := by
    unfold count
    rw [hvalid]
    rfl
  rw [hrun]
  refine asks_of_run rfl fun reply => ?_
  cases reply with
  | error failure => exact ⟨_, rfl⟩
  | ok rows =>
      cases rows with
      | nil => exact ⟨_, rfl⟩
      | cons row rest => exact ⟨_, rfl⟩

/-- What a valid query sends, to find documents or to count them. A place stands for each value, in
the order of the values; the texts are those of every query with this shape, whatever its names and
values; and to count, the same conditions are sent without the page. -/
theorem text_of_shape_and_places :
    Asks (query q) (.query q) ∧ Asks (count q) (.count q) ∧
      (Statement.query q).places = numbered 1 (Statement.query q).params.length ∧
      (Statement.count q).places = numbered 1 (Statement.count q).params.length ∧
      (Statement.query q).params = conditionValues q ++ pageValues q ∧
      (Statement.count q).params = conditionValues q ∧
      (∀ other : Query, other.shape = q.shape →
        (Statement.query other).text = (Statement.query q).text ∧
          (Statement.count other).text = (Statement.count q).text) ∧
      ∃ conditions page,
        (Statement.query q).text =
          "SELECT id, body, etag, sequence, expires_at FROM documents" ++
            ((" WHERE collection = $1" ++ conditions) ++ (" ORDER BY sequence " ++ page)) ∧
        (Statement.count q).text =
          "SELECT COUNT(*) AS total FROM documents" ++
            (" WHERE collection = $1" ++ conditions) := by
  refine ⟨asks_query hvalid, asks_count hvalid, Statement.places_query q,
    Statement.places_count q, Statement.params_query q, Statement.params_count q,
    fun other hshape => ⟨Statement.text_query_of_shape hshape,
      Statement.text_count_of_shape hshape⟩, ?_⟩
  obtain ⟨conditions, hclause⟩ := Statement.exists_clause q
  obtain ⟨page, hpage⟩ := Statement.exists_text_query q
  refine ⟨conditions, page, ?_, ?_⟩
  · rw [hpage, hclause]
  · rw [Statement.text_count, hclause]

end Valid

namespace Sample

/-- Each kind of condition, with a path that looks like a place. -/
def everyCondition : Query where
  collection := "jobs"
  filters :=
    [⟨["$1"], .equals (.str "$2")⟩, ⟨["state"], .oneOf [.str "a", .str "b"]⟩,
      ⟨["name"], .oneOf []⟩, ⟨["fetched_at"], .isNull⟩, ⟨["a", "b"], .notNull⟩,
      ⟨["at"], .before epoch⟩]
  order := .newestFirst
  skip := 5
  take := some 10

end Sample

theorem places_of_every_condition :
    Sample.everyCondition.validate = .ok () ∧
      (Statement.query Sample.everyCondition).places = numbered 1 13 ∧
      (Statement.count Sample.everyCondition).places = numbered 1 11 := by
  have hvalid : Sample.everyCondition.validate = .ok () := rfl
  obtain ⟨-, -, hquery, hcount, -⟩ := text_of_shape_and_places hvalid
  exact ⟨hvalid, hquery, hcount⟩

end Talk

end Sql

end Jobyard
