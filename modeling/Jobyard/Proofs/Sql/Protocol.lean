import Jobyard.Proofs.Sql.Transcript

/-!
The protocol of a commit. A batch is one transaction: its statements are sent in the order of its
writes, one for each, up to the first that fails; it is committed if none fails and rolled back
otherwise, and what the client is told names a lost race as such and nothing else.
-/

namespace Jobyard.Sql

def requestOf : Write → Request
  | .put id body expiresAt .absent => .execute (.insertNew id body expiresAt)
  | .put id body expiresAt (.exact etag) => .execute (.update id body expiresAt etag)
  | .put id body expiresAt .any => .execute (.upsert id body expiresAt)
  | .delete id .any => .execute (.deleteAny id)
  | .delete id (.exact etag) => .execute (.deleteExact id etag)
  | .delete id .absent => .fetch (.existence id)
  | .increment id field delta expiresAt => .execute (.increment id field delta expiresAt)

/-- A write that lost a race by what was answered: it changed no row although it must, or there is
a document that must not be there. -/
inductive Lost : Write → Said → Prop
  | put (id : DocId) (body : Json) (expiresAt : Option Instant) (expected : Expected)
    (statement : Statement) : Lost (.put id body expiresAt expected) ⟨.execute statement, .ok 0⟩
  | version (id : DocId) (etag : Nat) (statement : Statement) :
    Lost (.delete id (.exact etag)) ⟨.execute statement, .ok 0⟩
  | present (id : DocId) (statement : Statement) (row : Row) (rows : List Row)
    (hexists : row.exists? = some true) :
    Lost (.delete id .absent) ⟨.fetch statement, .ok (row :: rows)⟩

inductive Unclear : Write → Said → Prop
  | missing (id : DocId) (statement : Statement) :
    Unclear (.delete id .absent) ⟨.fetch statement, .ok []⟩
  | unreadable (id : DocId) (statement : Statement) (row : Row) (rows : List Row)
    (hexists : row.exists? = none) :
    Unclear (.delete id .absent) ⟨.fetch statement, .ok (row :: rows)⟩

def Failed (w : Write) (x : Said) : Prop := x.failure?.isSome ∨ Lost w x ∨ Unclear w x

/-- The server answered that somebody else was first. -/
def Said.Raced (x : Said) : Prop :=
  ∃ code message, x.failure? = some (.refused code message) ∧ (code = "23505" ∨ code = "40001")

/-- Only a lost race is reported as one, and everything else as a failure of the server. -/
structure Blames (raced : Prop) (e : StoreError) : Prop where
  concurrency : e.kind = .concurrency ↔ raced
  backend : ¬ raced → e.kind = .backend

theorem blames_of_concurrency {raced : Prop} {e : StoreError} (h : e.kind = .concurrency)
    (hraced : raced) : Blames raced e :=
  ⟨⟨fun _ => hraced, fun _ => h⟩, fun hnone => absurd hraced hnone⟩

theorem blames_of_backend {raced : Prop} {e : StoreError} (h : e.kind = .backend)
    (hnone : ¬ raced) : Blames raced e :=
  ⟨⟨fun hkind => (nomatch h.symm.trans hkind), fun hraced => absurd hraced hnone⟩, fun _ => h⟩

theorem kind_server (call : ServerCall) (code message : String) :
    (StoreError.server call code message).kind =
      if code = "23505" ∨ code = "40001" then .concurrency else .backend := by
  simp [StoreError.kind, StoreError.raceCodes]

theorem blames_report (call : ServerCall) {x : Said} {f : Failure}
    (hfailure : x.failure? = some f) : Blames x.Raced (f.report call) := by
  cases f with
  | broken =>
      refine blames_of_backend rfl fun ⟨code, message, hrefused, _⟩ => ?_
      rw [hfailure] at hrefused
      cases hrefused
  | refused code message =>
      change Blames x.Raced (.server call code message)
      by_cases hcode : code = "23505" ∨ code = "40001"
      · refine blames_of_concurrency ?_ ⟨code, message, hfailure, hcode⟩
        rw [kind_server, if_pos hcode]
      · refine blames_of_backend ?_ fun ⟨other, text, hrefused, hother⟩ => ?_
        · rw [kind_server, if_neg hcode]
        · rw [hfailure] at hrefused
          cases hrefused
          exact hcode hother

structure Explains (w : Write) (x : Said) (f : WriteFailure) : Prop where
  failed : Failed w x
  broken : (∃ e, f = .broken e) ↔ x.failure? = some .broken
  blames : Blames (Lost w x ∨ x.Raced) f.cause

theorem explains_failure {w : Write} {x : Said} (call : ServerCall) {f : Failure}
    (hfailure : x.failure? = some f) (hlost : ¬ Lost w x) :
    Explains w x (WriteTalk.fail call f) := by
  have hblames : Blames (Lost w x ∨ x.Raced) (f.report call) := by
    rw [or_iff_right hlost]
    exact blames_report call hfailure
  refine ⟨.inl (by rw [hfailure]; rfl), ?_, ?_⟩
  · rw [hfailure]
    cases f <;> simp [WriteTalk.fail]
  · cases f <;> exact hblames

theorem explains_lost {w : Write} {x : Said} {e : StoreError} (hlost : Lost w x)
    (hkind : e.kind = .concurrency) : Explains w x (.lost e) := by
  refine ⟨.inr (.inl hlost), ?_, blames_of_concurrency hkind (.inl hlost)⟩
  cases hlost <;> simp [Said.failure?]

theorem explains_unclear {w : Write} {x : Said} (hunclear : Unclear w x) :
    Explains w x (.lost (.connection .delete)) := by
  refine ⟨.inr (.inr hunclear), ?_, blames_of_backend rfl ?_⟩
  · cases hunclear <;> simp [Said.failure?]
  · rintro (hlost | ⟨_, _, hrefused, _⟩)
    · cases hunclear with
      | missing => cases hlost
      | unreadable _ _ _ _ hnone =>
          cases hlost with
          | present _ _ _ _ hexists =>
              rw [hnone] at hexists
              cases hexists
    · cases hunclear <;> cases hrefused

structure Answered (w : Write) (x : Said) (result : Except WriteFailure Unit) : Prop where
  request : x.request = requestOf w
  ok : result = .ok () → ¬ Failed w x
  error : ∀ f, result = .error f → Explains w x f

theorem answered_ok {w : Write} {x : Said} (hrequest : x.request = requestOf w)
    (hfailure : x.failure? = none) (hlost : ¬ Lost w x) (hunclear : ¬ Unclear w x) :
    Answered w x (.ok ()) := by
  refine ⟨hrequest, fun _ hfailed => ?_, fun _ h => nomatch h⟩
  rcases hfailed with hsome | hraced | hneither
  · rw [hfailure] at hsome
    cases hsome
  · exact hlost hraced
  · exact hunclear hneither

theorem answered_error {w : Write} {x : Said} {f : WriteFailure}
    (hrequest : x.request = requestOf w) (hexplains : Explains w x f) :
    Answered w x (.error f) := by
  refine ⟨hrequest, fun h => (nomatch h), fun other h => ?_⟩
  cases h
  exact hexplains

theorem answered_checked {w : Write} {statement : Statement} {call : ServerCall} {e : StoreError}
    {said : Transcript} {result : Except WriteFailure Unit}
    (hrequest : requestOf w = .execute statement)
    (hlost : ∀ reply, Lost w ⟨.execute statement, reply⟩ ↔ reply = .ok 0)
    (hkind : e.kind = .concurrency)
    (h : Held (ExceptT.run (do
      let affected ← WriteTalk.execute call statement
      if affected = 0 then throw (.lost e)) : Dialogue (Except WriteFailure Unit)) said result) :
    ∃ x, said = [x] ∧ Answered w x result := by
  obtain ⟨reply, rest, rfl, hrest⟩ := held_call_iff.mp h
  have hclear : ∀ reply, ¬ Unclear w ⟨.execute statement, reply⟩ := fun _ h => nomatch h
  cases reply with
  | error f =>
      obtain ⟨rfl, rfl⟩ := held_done_iff.mp hrest
      refine ⟨_, rfl, answered_error hrequest.symm (explains_failure call rfl fun hlost' => ?_)⟩
      cases (hlost _).mp hlost'
  | ok affected =>
      cases affected with
      | zero =>
          obtain ⟨rfl, rfl⟩ := held_done_iff.mp hrest
          exact ⟨_, rfl, answered_error hrequest.symm (explains_lost ((hlost _).mpr rfl) hkind)⟩
      | succ n =>
          obtain ⟨rfl, rfl⟩ := held_done_iff.mp hrest
          refine ⟨_, rfl, answered_ok hrequest.symm rfl (fun hlost' => ?_) (hclear _)⟩
          cases (hlost _).mp hlost'

theorem answered_unchecked {w : Write} {statement : Statement} {call : ServerCall}
    {said : Transcript} {result : Except WriteFailure Unit}
    (hrequest : requestOf w = .execute statement)
    (hlost : ∀ reply, ¬ Lost w ⟨.execute statement, reply⟩)
    (h : Held (ExceptT.run (discard (WriteTalk.execute call statement)) :
      Dialogue (Except WriteFailure Unit)) said result) :
    ∃ x, said = [x] ∧ Answered w x result := by
  obtain ⟨reply, rest, rfl, hrest⟩ := held_call_iff.mp h
  cases reply with
  | error f =>
      obtain ⟨rfl, rfl⟩ := held_done_iff.mp hrest
      exact ⟨_, rfl, answered_error hrequest.symm (explains_failure call rfl (hlost _))⟩
  | ok affected =>
      obtain ⟨rfl, rfl⟩ := held_done_iff.mp hrest
      exact ⟨_, rfl, answered_ok hrequest.symm rfl (hlost _) fun h => nomatch h⟩

theorem answered_existence {id : DocId} {row : Row} {rows : List Row} {said : Transcript}
    {result : Except WriteFailure Unit}
    (h : Held (ExceptT.run (match row.exists? with
      | none => throw (.lost (.connection .delete))
      | some true => throw (.lost (.deletePresent id))
      | some false => pure ()) : Dialogue (Except WriteFailure Unit)) said result) :
    said = [] ∧
      Answered (.delete id .absent) ⟨.fetch (.existence id), .ok (row :: rows)⟩ result := by
  cases hexists : row.exists? with
  | none =>
      rw [hexists] at h
      obtain ⟨rfl, rfl⟩ := held_done_iff.mp h
      exact ⟨rfl, answered_error rfl (explains_unclear (.unreadable id _ row rows hexists))⟩
  | some there =>
      rw [hexists] at h
      cases there with
      | true =>
          obtain ⟨rfl, rfl⟩ := held_done_iff.mp h
          exact ⟨rfl, answered_error rfl (explains_lost (.present id _ row rows hexists) rfl)⟩
      | false =>
          obtain ⟨rfl, rfl⟩ := held_done_iff.mp h
          refine ⟨rfl, answered_ok rfl rfl (fun hlost => ?_) fun hunclear => ?_⟩
          · cases hlost with
            | present _ _ _ _ hpresent =>
                rw [hexists] at hpresent
                cases hpresent
          · cases hunclear with
            | unreadable _ _ _ _ hnone =>
                rw [hexists] at hnone
                cases hnone

theorem requestOf_put (id : DocId) (body : Json) (expiresAt : Option Instant)
    (expected : Expected) :
    requestOf (.put id body expiresAt expected) =
      .execute (WriteTalk.putStatement id body expiresAt expected) := by
  cases expected <;> rfl

theorem answered_of_held {w : Write} {said : Transcript} {result : Except WriteFailure Unit}
    (h : Held (WriteTalk.write w).run said result) :
    ∃ x, said = [x] ∧ Answered w x result := by
  cases w with
  | put id body expiresAt expected =>
      have hrequest := requestOf_put id body expiresAt expected
      refine answered_checked hrequest (fun reply => ⟨fun hlost => ?_, fun hnone => ?_⟩) rfl h
      · cases hlost
        rfl
      · rw [hnone]
        exact .put ..
  | increment id field delta expiresAt => exact answered_unchecked rfl (fun _ h => nomatch h) h
  | delete id expected =>
      cases expected with
      | any => exact answered_unchecked rfl (fun _ h => nomatch h) h
      | exact etag =>
          refine answered_checked rfl (fun reply => ⟨fun hlost => ?_, fun hnone => ?_⟩) rfl h
          · cases hlost
            rfl
          · rw [hnone]
            exact .version ..
      | absent =>
          obtain ⟨reply, rest, rfl, hrest⟩ := held_call_iff.mp h
          cases reply with
          | error f =>
              obtain ⟨rfl, rfl⟩ := held_done_iff.mp hrest
              exact ⟨_, rfl, answered_error rfl (explains_failure .delete rfl fun h => nomatch h)⟩
          | ok rows =>
              cases rows with
              | nil =>
                  obtain ⟨rfl, rfl⟩ := held_done_iff.mp hrest
                  exact ⟨_, rfl, answered_error rfl (explains_unclear (.missing ..))⟩
              | cons row rows =>
                  obtain ⟨rfl, hanswered⟩ := answered_existence hrest
                  exact ⟨_, rfl, hanswered⟩

/-- The statements of a batch, one for each write, up to the first that fails. -/
structure Carried (batch : Batch) (said : Transcript) (result : Except WriteFailure Unit) :
    Prop where
  order : said.map (·.request) = (batch.take said.length).map requestOf
  stops : ∀ pair ∈ (batch.zip said).dropLast, ¬ Failed pair.1 pair.2
  ok : result = .ok () → said.length = batch.length ∧
    ∀ pair ∈ batch.zip said, ¬ Failed pair.1 pair.2
  error : ∀ f, result = .error f →
    ∃ pair, (batch.zip said).getLast? = some pair ∧ Explains pair.1 pair.2 f

theorem carried_of_held {batch : Batch} {said : Transcript} {result : Except WriteFailure Unit}
    (h : Held (WriteTalk.writeAll batch).run said result) : Carried batch said result := by
  induction batch generalizing said with
  | nil =>
      obtain ⟨rfl, rfl⟩ := held_done_iff.mp h
      exact ⟨rfl, fun _ h => (nomatch h), fun _ => ⟨rfl, fun _ h => nomatch h⟩,
        fun _ h => nomatch h⟩
  | cons w rest ih =>
      obtain ⟨first, second, value, rfl, hfirst, hsecond⟩ := held_bind_iff.mp h
      obtain ⟨x, rfl, hanswered⟩ := answered_of_held hfirst
      rw [List.singleton_append]
      cases value with
      | error f =>
          obtain ⟨rfl, rfl⟩ := held_done_iff.mp hsecond
          refine ⟨?_, fun _ h => ?_, fun h => (nomatch h), fun other h => ?_⟩
          · simp [hanswered.request]
          · rw [List.zip_cons_cons, List.zip_nil_right] at h
            cases h
          · cases h
            refine ⟨(w, x), ?_, hanswered.error f rfl⟩
            rw [List.zip_cons_cons, List.zip_nil_right]
            rfl
      | ok _ =>
          obtain ⟨horder, hstops, hok, herror⟩ := ih hsecond
          have hdone : ¬ Failed w x := hanswered.ok rfl
          refine ⟨?_, fun pair hmem => ?_, fun hresult => ?_, fun f hresult => ?_⟩
          · simp [hanswered.request, horder]
          · rw [List.zip_cons_cons] at hmem
            cases hzip : rest.zip second with
            | nil =>
                rw [hzip] at hmem
                cases hmem
            | cons _ _ =>
                rw [hzip, List.dropLast_cons_cons, ← hzip] at hmem
                rcases List.mem_cons.mp hmem with rfl | hmore
                · exact hdone
                · exact hstops pair hmore
          · obtain ⟨hlength, hnone⟩ := hok hresult
            exact ⟨by simp [hlength], List.forall_mem_cons.mpr ⟨hdone, hnone⟩⟩
          · obtain ⟨pair, hlast, hexplains⟩ := herror f hresult
            refine ⟨pair, ?_, hexplains⟩
            rw [List.zip_cons_cons, List.getLast?_cons, hlast]
            rfl

section Carried

variable {batch : Batch} {said : Transcript} {result : Except WriteFailure Unit}

theorem Carried.length_le (h : Carried batch said result) : said.length ≤ batch.length := by
  have hlength := congrArg List.length h.order
  rw [List.length_map, List.length_map, List.length_take] at hlength
  omega

theorem Carried.isStatement (h : Carried batch said result) : ∀ x ∈ said, x.isStatement := by
  intro x hmem
  have hrequest : x.request ∈ said.map (·.request) := List.mem_map_of_mem hmem
  rw [h.order] at hrequest
  obtain ⟨w, _, hw⟩ := List.mem_map.mp hrequest
  obtain ⟨request, reply⟩ := x
  cases hw
  rcases w with ⟨id, body, expiresAt, _ | _ | _⟩ | ⟨id, _ | _ | _⟩ | _ <;> rfl

theorem Carried.exists_write (h : Carried batch said result) {x : Said} (hmem : x ∈ said) :
    ∃ w, (w, x) ∈ batch.zip said := by
  rw [← List.map_snd_zip h.length_le] at hmem
  obtain ⟨⟨w, y⟩, hpair, rfl⟩ := List.mem_map.mp hmem
  exact ⟨w, hpair⟩

theorem Carried.eq_last (h : Carried batch said result) {pair last : Write × Said}
    (hlast : (batch.zip said).getLast? = some last) (hmem : pair ∈ batch.zip said)
    (hfailed : Failed pair.1 pair.2) : pair = last := by
  obtain ⟨front, hsplit⟩ := List.getLast?_eq_some_iff.mp hlast
  rw [hsplit] at hmem
  rcases List.mem_append.mp hmem with hfront | hsame
  · refine absurd hfailed (h.stops pair ?_)
    rw [hsplit, List.dropLast_concat]
    exact hfront
  · exact List.mem_singleton.mp hsame

theorem Carried.failed_of_raced (h : Carried batch said result) {x : Said} (hmem : x ∈ said)
    (hraced : x.Raced) : ∃ w, (w, x) ∈ batch.zip said ∧ Failed w x := by
  obtain ⟨w, hpair⟩ := h.exists_write hmem
  obtain ⟨_, _, hrefused, _⟩ := hraced
  exact ⟨w, hpair, .inl (by rw [hrefused]; rfl)⟩

theorem Carried.ok_iff (h : Carried batch said result) :
    result = .ok () ↔ ∀ pair ∈ batch.zip said, ¬ Failed pair.1 pair.2 := by
  refine ⟨fun hresult => (h.ok hresult).2, fun hnone => ?_⟩
  cases result with
  | ok _ => rfl
  | error f =>
      obtain ⟨pair, hlast, hexplains⟩ := h.error f rfl
      exact absurd hexplains.failed (hnone pair (List.mem_of_getLast? hlast))

def Race (batch : Batch) (said : Transcript) : Prop :=
  (∃ pair ∈ batch.zip said.statements, Lost pair.1 pair.2) ∨ ∃ x ∈ said, x.Raced

theorem Carried.statements (h : Carried batch said result) : said.statements = said :=
  List.filter_eq_self.mpr h.isStatement

theorem Carried.not_race (h : Carried batch said (.ok ())) : ¬ Race batch said := by
  have hnone := h.ok_iff.mp rfl
  rintro (⟨pair, hmem, hlost⟩ | ⟨x, hmem, hraced⟩)
  · rw [h.statements] at hmem
    exact hnone pair hmem (.inr (.inl hlost))
  · obtain ⟨w, hpair, hfailed⟩ := h.failed_of_raced hmem hraced
    exact hnone _ hpair hfailed

theorem Carried.blames {f : WriteFailure} (h : Carried batch said (.error f)) :
    Blames (Race batch said) f.cause := by
  obtain ⟨⟨w, x⟩, hlast, hexplains⟩ := h.error f rfl
  have hmem := List.mem_of_getLast? hlast
  have hrace : Race batch said ↔ Lost w x ∨ x.Raced := by
    constructor
    · rintro (⟨pair, hpair, hlost⟩ | ⟨y, hy, hraced⟩)
      · rw [h.statements] at hpair
        cases h.eq_last hlast hpair (.inr (.inl hlost))
        exact .inl hlost
      · obtain ⟨v, hpair, hfailed⟩ := h.failed_of_raced hy hraced
        cases h.eq_last hlast hpair hfailed
        exact .inr hraced
    · rintro (hlost | hraced)
      · exact .inl ⟨(w, x), by rwa [h.statements], hlost⟩
      · exact .inr ⟨x, (List.of_mem_zip hmem).2, hraced⟩
  rw [hrace]
  exact hexplains.blames

end Carried

inductive Course (batch : Batch) : Transcript → Except StoreError Unit → Prop
  | unbegun (f : Failure) :
    Course batch [⟨.begin, .error f⟩] (.error (f.report .beginTransaction))
  | lost {statements : Transcript} {e : StoreError}
    (hcarried : Carried batch statements (.error (.lost e))) :
    Course batch (⟨.begin, .ok ()⟩ :: (statements ++ [⟨.rollback, ()⟩])) (.error e)
  | broken {statements : Transcript} {e : StoreError}
    (hcarried : Carried batch statements (.error (.broken e))) :
    Course batch (⟨.begin, .ok ()⟩ :: (statements ++ [])) (.error e)
  | committed {statements : Transcript} (hcarried : Carried batch statements (.ok ())) :
    Course batch (⟨.begin, .ok ()⟩ :: (statements ++ [⟨.commit, .ok ()⟩])) (.ok ())
  | unreachable {statements : Transcript} (hcarried : Carried batch statements (.ok ())) :
    Course batch (⟨.begin, .ok ()⟩ :: (statements ++ [⟨.commit, .error .broken⟩]))
      (.error (.connection .commitTransaction))
  | refused {statements : Transcript} (code message : String)
    (hcarried : Carried batch statements (.ok ())) :
    Course batch (⟨.begin, .ok ()⟩ ::
        (statements ++ [⟨.commit, .error (.refused code message)⟩, ⟨.rollback, ()⟩]))
      (.error (.server .commitTransaction code message))

theorem run_commit {batch : Batch} (hbatch : batch ≠ []) :
    (Talk.commit batch).run = .call .begin fun begun => match begun with
      | .error failure => .done (.error (failure.report .beginTransaction))
      | .ok _ => (WriteTalk.writeAll batch).run >>= fun written =>
        match written with
        | .error (.lost e) => Talk.rollBack e
        | .error (.broken e) => .done (.error e)
        | .ok _ => Talk.tell .commit fun ended =>
          match ended with
          | .ok _ => .done (.ok ())
          | .error .broken => .done (.error (.connection .commitTransaction))
          | .error (.refused code message) =>
            Talk.rollBack (.server .commitTransaction code message) := by
  unfold Talk.commit
  rw [if_neg (by simpa using hbatch)]
  rfl

theorem course_of_held {batch : Batch} (hbatch : batch ≠ []) {said : Transcript}
    {result : Except StoreError Unit} (h : Held (Talk.commit batch).run said result) :
    Course batch said result := by
  rw [run_commit hbatch] at h
  obtain ⟨begun, rest, rfl, hrest⟩ := held_call_iff.mp h
  cases begun with
  | error f =>
      obtain ⟨rfl, rfl⟩ := held_done_iff.mp hrest
      exact .unbegun f
  | ok _ =>
      obtain ⟨statements, ending, written, rfl, hstatements, hending⟩ := held_bind_iff.mp hrest
      have hcarried := carried_of_held hstatements
      cases written with
      | error failure =>
          cases failure with
          | lost e =>
              obtain ⟨_, _, rfl, hdone⟩ := held_call_iff.mp hending
              obtain ⟨rfl, rfl⟩ := held_done_iff.mp hdone
              exact .lost hcarried
          | broken e =>
              obtain ⟨rfl, rfl⟩ := held_done_iff.mp hending
              exact .broken hcarried
      | ok _ =>
          obtain ⟨ended, last, rfl, hlast⟩ := held_call_iff.mp hending
          cases ended with
          | ok _ =>
              obtain ⟨rfl, rfl⟩ := held_done_iff.mp hlast
              exact .committed hcarried
          | error failure =>
              cases failure with
              | broken =>
                  obtain ⟨rfl, rfl⟩ := held_done_iff.mp hlast
                  exact .unreachable hcarried
              | refused code message =>
                  obtain ⟨_, _, rfl, hdone⟩ := held_call_iff.mp hlast
                  obtain ⟨rfl, rfl⟩ := held_done_iff.mp hdone
                  exact .refused code message hcarried

structure Protocol (batch : Batch) (said : Transcript) (result : Except StoreError Unit) :
    Prop where
  shape : ∃ begun ending, said = ⟨.begin, begun⟩ :: (said.statements ++ ending) ∧
    ending.map (·.request) ∈ [[], [.commit], [.rollback], [.commit, .rollback]]
  unbegun : ∀ f, ⟨.begin, .error f⟩ ∈ said → said = [⟨.begin, .error f⟩]
  order : said.statements.map (·.request) = (batch.take said.statements.length).map requestOf
  stops : ∀ pair ∈ (batch.zip said.statements).dropLast, ¬ Failed pair.1 pair.2
  goes_on : ⟨.begin, .ok ()⟩ ∈ said → said.statements.length = batch.length ∨
    ∃ pair ∈ batch.zip said.statements, Failed pair.1 pair.2
  commits : (∃ x ∈ said, x.request = .commit) ↔
    ⟨.begin, .ok ()⟩ ∈ said ∧ ∀ pair ∈ batch.zip said.statements, ¬ Failed pair.1 pair.2
  /-- Without a connection nothing can be sent. -/
  rolls_back : ∀ pair ∈ batch.zip said.statements, Failed pair.1 pair.2 →
    pair.2.failure? ≠ some .broken → ⟨.rollback, ()⟩ ∈ said
  ok_iff : result = .ok () ↔ ⟨.commit, .ok ()⟩ ∈ said
  blames : ∀ e, result = .error e → Blames (Race batch said) e

structure Ends (written : Except WriteFailure Unit) (ending : Transcript) : Prop where
  requests : ending.map (·.request) ∈ [[], [.commit], [.rollback], [.commit, .rollback]]
  commits : (∃ x ∈ ending, x.request = .commit) ↔ written = .ok ()
  rolls_back : ∀ e, written = .error (.lost e) → ⟨.rollback, ()⟩ ∈ ending

section Ends

variable {batch : Batch} {inner ending : Transcript} {written : Except WriteFailure Unit}
  {result : Except StoreError Unit}

theorem Ends.request_eq (h : Ends written ending) {x : Said} (hmem : x ∈ ending) :
    x.request = .commit ∨ x.request = .rollback := by
  have hrequest : x.request ∈ ending.map (·.request) := List.mem_map_of_mem hmem
  have hrequests := h.requests
  simp only [List.mem_cons, List.not_mem_nil, or_false] at hrequests
  rcases hrequests with heq | heq | heq | heq <;> rw [heq] at hrequest <;>
    simp only [List.mem_cons, List.not_mem_nil, or_false] at hrequest
  · exact .inl hrequest
  · exact .inr hrequest
  · exact hrequest

theorem Ends.not_statement (h : Ends written ending) : ∀ x ∈ ending, ¬ x.isStatement := by
  rintro ⟨request, reply⟩ hmem
  rcases h.request_eq hmem with rfl | rfl <;> exact Bool.false_ne_true

theorem Ends.statements (h : Ends written ending) (hcarried : Carried batch inner written) :
    Transcript.statements (⟨.begin, .ok ()⟩ :: (inner ++ ending)) = inner := by
  have hending : ending.filter Said.isStatement = [] :=
    List.filter_eq_nil_iff.mpr h.not_statement
  have hinner := hcarried.statements
  unfold Transcript.statements at hinner ⊢
  rw [List.filter_cons_of_neg (by simp [Said.isStatement]), List.filter_append, hinner, hending,
    List.append_nil]

theorem Ends.race_iff (h : Ends written ending) (hcarried : Carried batch inner written) :
    Race batch (⟨.begin, .ok ()⟩ :: (inner ++ ending)) ↔
      Race batch inner ∨ ∃ x ∈ ending, x.Raced := by
  have hbegin : ¬ Said.Raced ⟨.begin, .ok ()⟩ := fun ⟨_, _, hrefused, _⟩ => nomatch hrefused
  unfold Race
  rw [h.statements hcarried, hcarried.statements, or_assoc]
  simp only [List.mem_cons, List.mem_append, or_and_right, exists_or, exists_eq_left, hbegin,
    false_or]

theorem mem_frame (hcarried : Carried batch inner written) {x : Said}
    (hstatement : x.isStatement = false) (hbegin : x.request ≠ .begin) :
    x ∈ ⟨.begin, .ok ()⟩ :: (inner ++ ending) ↔ x ∈ ending := by
  refine ⟨fun hmem => ?_, fun hmem => List.mem_cons_of_mem _ (List.mem_append_right _ hmem)⟩
  rcases List.mem_cons.mp hmem with rfl | hmore
  · exact absurd rfl hbegin
  · refine (List.mem_append.mp hmore).resolve_left fun hinner => ?_
    have hinner := hcarried.isStatement x hinner
    rw [hstatement] at hinner
    cases hinner

/-- Of a transaction that was begun, only what is answered at its end is left to look at. -/
theorem Ends.protocol (h : Ends written ending) (hcarried : Carried batch inner written)
    (hok : result = .ok () ↔ ⟨.commit, .ok ()⟩ ∈ ending)
    (hblames : ∀ e, result = .error e →
      Blames (Race batch inner ∨ ∃ x ∈ ending, x.Raced) e) :
    Protocol batch (⟨.begin, .ok ()⟩ :: (inner ++ ending)) result := by
  have hstatements := h.statements hcarried
  have hcommit : ∀ reply, (⟨.commit, reply⟩ : Said) ∈ ⟨.begin, .ok ()⟩ :: (inner ++ ending) ↔
      ⟨.commit, reply⟩ ∈ ending := fun reply => mem_frame hcarried rfl nofun
  refine ⟨⟨.ok (), ending, by rw [hstatements], h.requests⟩, fun f hmem => ?_, ?_, ?_, fun _ => ?_,
    ?_, ?_, hok.trans (hcommit _).symm, fun e hresult => ?_⟩
  · rcases List.mem_cons.mp hmem with heq | hmore
    · cases heq
    · rcases List.mem_append.mp hmore with hinner | hend
      · cases hcarried.isStatement _ hinner
      · rcases h.request_eq hend with hrequest | hrequest <;> cases hrequest
  · rw [hstatements]
    exact hcarried.order
  · rw [hstatements]
    exact hcarried.stops
  · rw [hstatements]
    cases written with
    | ok _ => exact .inl (hcarried.ok rfl).1
    | error f =>
        obtain ⟨pair, hlast, hexplains⟩ := hcarried.error f rfl
        exact .inr ⟨pair, List.mem_of_getLast? hlast, hexplains.failed⟩
  · rw [hstatements, ← hcarried.ok_iff, ← h.commits, and_iff_right List.mem_cons_self]
    constructor
    · rintro ⟨⟨_, reply⟩, hmem, rfl⟩
      exact ⟨_, (hcommit reply).mp hmem, rfl⟩
    · rintro ⟨⟨_, reply⟩, hmem, rfl⟩
      exact ⟨_, (hcommit reply).mpr hmem, rfl⟩
  · rw [hstatements]
    intro pair hmem hfailed hbroken
    cases written with
    | ok _ => exact absurd hfailed ((hcarried.ok rfl).2 pair hmem)
    | error f =>
        obtain ⟨last, hlast, hexplains⟩ := hcarried.error f rfl
        cases hcarried.eq_last hlast hmem hfailed
        cases f with
        | lost e =>
            exact (mem_frame hcarried (x := ⟨.rollback, ()⟩) rfl nofun).mpr (h.rolls_back e rfl)
        | broken e => exact absurd (hexplains.broken.mp ⟨e, rfl⟩) hbroken
  · rw [h.race_iff hcarried]
    exact hblames e hresult

end Ends

theorem protocol_unbegun (batch : Batch) (f : Failure) :
    Protocol batch [⟨.begin, .error f⟩] (.error (f.report .beginTransaction)) := by
  have hstatements : Transcript.statements [⟨.begin, .error f⟩] = [] := rfl
  refine ⟨⟨.error f, [], rfl, by simp⟩, fun g hmem => ?_, rfl, ?_, fun hmem => ?_, by simp, ?_,
    by simp, fun e hresult => ?_⟩
  · rw [List.mem_singleton.mp hmem]
  · simp [hstatements]
  · cases List.mem_singleton.mp hmem
  · simp [hstatements]
  · cases hresult
    simpa [Race, hstatements] using
      blames_report .beginTransaction (x := ⟨.begin, .error f⟩) rfl

theorem not_raced_rollback (reply : Unit) : ¬ Said.Raced ⟨.rollback, reply⟩ :=
  fun ⟨_, _, hrefused, _⟩ => nomatch hrefused

theorem Course.protocol {batch : Batch} {said : Transcript} {result : Except StoreError Unit}
    (h : Course batch said result) : Protocol batch said result := by
  cases h with
  | unbegun f => exact protocol_unbegun batch f
  | lost hcarried =>
      refine Ends.protocol ⟨by simp, by simp, by simp⟩ hcarried (by simp) fun e hresult => ?_
      cases hresult
      simpa only [List.mem_singleton, exists_eq_left, not_raced_rollback, or_false,
        WriteFailure.cause] using hcarried.blames
  | broken hcarried =>
      refine Ends.protocol ⟨by simp, by simp, by simp⟩ hcarried (by simp) fun e hresult => ?_
      cases hresult
      simpa only [List.not_mem_nil, false_and, exists_false, or_false, WriteFailure.cause]
        using hcarried.blames
  | committed hcarried =>
      exact Ends.protocol ⟨by simp, by simp, by simp⟩ hcarried (by simp) nofun
  | unreachable hcarried =>
      refine Ends.protocol ⟨by simp, by simp, by simp⟩ hcarried (by simp) fun e hresult => ?_
      cases hresult
      rw [or_iff_right hcarried.not_race]
      simpa only [List.mem_singleton, exists_eq_left, Failure.report] using
        blames_report .commitTransaction (x := ⟨.commit, .error .broken⟩) rfl
  | refused code message hcarried =>
      refine Ends.protocol ⟨by simp, by simp, by simp⟩ hcarried (by simp) fun e hresult => ?_
      cases hresult
      rw [or_iff_right hcarried.not_race]
      simpa only [List.mem_cons, List.not_mem_nil, or_false, exists_eq_or_imp, exists_eq_left,
        not_raced_rollback, Failure.report] using
        blames_report .commitTransaction (x := ⟨.commit, .error (.refused code message)⟩) rfl

/-- A commit follows its protocol whatever the server answers, and a server receives what is said in
it. There is nothing to say for a batch without writes. -/
theorem commit_protocol (batch : Batch) :
    (∀ said result, Held (Talk.commit batch).run said result →
      (batch = [] → said = [] ∧ result = .ok ()) ∧ (batch ≠ [] → Protocol batch said result)) ∧
    ∀ peer : Simulation.Peer, ∃ said, Held (Talk.commit batch).run said
      (peer.run (Talk.commit batch)).1 ∧
      (peer.run (Talk.commit batch)).2.sent = peer.sent ++ said.map Said.sent := by
  refine ⟨fun said result hheld => ⟨?_, fun hbatch => (course_of_held hbatch hheld).protocol⟩,
    fun peer => peer.exists_held _⟩
  rintro rfl
  exact held_done_iff.mp hheld

namespace Sample

open Simulation

def hashId : DocId := ⟨"hashes", "a"⟩

def guarded : Batch := [.put hashId (.obj []) none (.exact 3), .delete hashId .any]

/-- The guarded write changes no row. -/
def outrun : Peer := .start .standard [.result 0 []]

/-- Both statements go well, and the end of the transaction is refused. -/
def contended : Peer :=
  { Peer.start .standard [] with commitFailure := some (.refused "40001" "") }

def rewriting : Sent := .statement (.update hashId (.obj []) none 3)

end Sample

open Sample in
theorem commit_protocol_lost :
    (∃ said e, Protocol guarded said (.error e) ∧ e.kind = .concurrency ∧
      said.map Said.sent = [.begin, rewriting, .rollback]) ∧
    ∃ said e, Protocol guarded said (.error e) ∧ e.kind = .concurrency ∧
      said.map Said.sent =
        [.begin, rewriting, .statement (.deleteAny hashId), .commit, .rollback] := by
  obtain ⟨hprotocol, hpeer⟩ := commit_protocol guarded
  obtain ⟨said, hheld, hsent⟩ := hpeer outrun
  obtain ⟨other, hother, hsends⟩ := hpeer contended
  exact ⟨⟨said, _, (hprotocol said _ hheld).2 nofun, rfl, hsent.symm⟩,
    other, _, (hprotocol other _ hother).2 nofun, rfl, hsends.symm⟩

end Jobyard.Sql
