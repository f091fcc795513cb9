import Jobyard.Store.Memory

/-!
Writes one at a time. A batch that is worked out on a draft has the outcome of its writes made one
after the other on the store itself, and a write changes nothing but the document it addresses.
-/

namespace Jobyard

theorem eq_ok_of_isOk {ε : Type} {result : Except ε Unit} (h : result.isOk) :
    result = .ok () := by
  cases result with
  | ok value => rfl
  | error e => cases h

theorem bind_eq_ok {ε α β : Type} {x : Except ε α} {f : α → Except ε β} {b : β} :
    x >>= f = .ok b ↔ ∃ a, x = .ok a ∧ f a = .ok b := by
  constructor
  · intro h
    cases x with
    | error e => cases h
    | ok a => exact ⟨a, rfl, h⟩
  · rintro ⟨a, rfl, hf⟩
    exact hf

theorem bind_eq_error {ε α β : Type} {x : Except ε α} {f : α → Except ε β} {e : ε} :
    x >>= f = .error e ↔ x = .error e ∨ ∃ a, x = .ok a ∧ f a = .error e := by
  constructor
  · intro h
    cases x with
    | error other =>
        cases h
        exact .inl rfl
    | ok a => exact .inr ⟨a, rfl, h⟩
  · rintro (rfl | ⟨a, rfl, hf⟩)
    · rfl
    · exact hf

namespace Memory

def write (m : Memory) (w : Write) : Except StoreError Memory := do
  let (document, lastSequence) ← outcome w (m.find? w.id) m.lastSequence
  .ok ⟨settle m.documents (w.id, document), lastSequence⟩

theorem find?_settle_self (documents : Dict DocId Stored) (id : DocId) (change : Option Stored) :
    (settle documents (id, change)).find? id = change := by
  cases change with
  | none => exact Dict.find?_erase_self documents id
  | some d => exact Dict.find?_insert_self documents id d

theorem find?_settle_of_ne (documents : Dict DocId Stored) {id other : DocId}
    (change : Option Stored) (hne : other ≠ id) :
    (settle documents (id, change)).find? other = documents.find? other := by
  cases change with
  | none => exact Dict.find?_erase_of_ne documents hne
  | some d => exact Dict.find?_insert_of_ne documents d hne

theorem find?_foldl_settle {changes : List (DocId × Option Stored)}
    (hsorted : Entries.Sorted changes) (documents : Dict DocId Stored) (id : DocId) :
    (changes.foldl settle documents).find? id =
      (Entries.find? id changes).getD (documents.find? id) := by
  induction changes generalizing documents with
  | nil => rfl
  | cons change rest ih =>
      obtain ⟨key, document⟩ := change
      obtain ⟨hfirst, hrest⟩ := List.pairwise_cons.mp hsorted
      rw [List.foldl_cons, ih hrest]
      by_cases hid : id = key
      · subst hid
        have habsent : Entries.find? id rest = none := Entries.find?_eq_none_of_lt hfirst
        have hpresent : Entries.find? id ((id, document) :: rest) = some document := by
          simp [Entries.find?, Std.ReflCmp.compare_self]
        rw [habsent, hpresent]
        exact find?_settle_self documents id document
      · have hcompare : compare id key ≠ .eq := fun h => hid (Std.compare_eq_iff_eq.mp h)
        have hskip : Entries.find? id ((key, document) :: rest) = Entries.find? id rest := by
          simp [Entries.find?]
        rw [hskip, find?_settle_of_ne documents document hid]

theorem find?_merge (m : Memory) (draft : Draft) (id : DocId) :
    (m.merge draft).find? id = draft.current m id := by
  have h := find?_foldl_settle draft.touched.sorted m.documents id
  unfold Draft.current Memory.find? merge
  rw [h, show Entries.find? id draft.touched.entries = draft.touched.find? id from rfl]
  cases draft.touched.find? id <;> rfl

theorem merge_touch (m : Memory) (draft : Draft) (id : DocId) (document : Option Stored)
    (lastSequence : Nat) :
    m.merge ⟨draft.touched.insert id document, lastSequence⟩ =
      ⟨settle (m.merge draft).documents (id, document), lastSequence⟩ := by
  have hdocuments : (m.merge ⟨draft.touched.insert id document, lastSequence⟩).documents =
      settle (m.merge draft).documents (id, document) := by
    apply Dict.ext_find?
    intro key
    change (m.merge ⟨draft.touched.insert id document, lastSequence⟩).find? key = _
    rw [find?_merge]
    unfold Draft.current
    by_cases hkey : key = id
    · subst hkey
      rw [Dict.find?_insert_self, find?_settle_self]
    · rw [Dict.find?_insert_of_ne _ _ hkey, find?_settle_of_ne _ _ hkey]
      exact (find?_merge m draft key).symm
  exact congrArg (fun documents => Memory.mk documents lastSequence) hdocuments

theorem merge_draft_write (m : Memory) (draft : Draft) (w : Write) :
    (Draft.write m draft w).map m.merge = (m.merge draft).write w := by
  unfold Draft.write write
  rw [find?_merge]
  change _ = outcome w (draft.current m w.id) draft.lastSequence >>= _
  cases outcome w (draft.current m w.id) draft.lastSequence with
  | error e => rfl
  | ok result => exact congrArg Except.ok (merge_touch m draft w.id result.1 result.2)

theorem merge_foldlM (m : Memory) (batch : Batch) (draft : Draft) :
    (batch.foldlM (Draft.write m) draft).map m.merge = batch.foldlM write (m.merge draft) := by
  induction batch generalizing draft with
  | nil => rfl
  | cons w rest ih =>
      rw [List.foldlM_cons, List.foldlM_cons, ← merge_draft_write]
      cases Draft.write m draft w with
      | error e => rfl
      | ok next => exact ih next

theorem commit_eq_foldlM (m : Memory) (batch : Batch) : m.commit batch = batch.foldlM write m := by
  have h := merge_foldlM m batch ⟨∅, m.lastSequence⟩
  change _ = batch.foldlM write m at h
  rw [← h]
  unfold commit
  cases batch.foldlM (Draft.write m) ⟨∅, m.lastSequence⟩ <;> rfl

theorem commit_nil (m : Memory) : m.commit [] = .ok m := commit_eq_foldlM m []

theorem commit_cons (m : Memory) (w : Write) (rest : Batch) :
    m.commit (w :: rest) = m.write w >>= fun next => next.commit rest := by
  rw [commit_eq_foldlM, List.foldlM_cons]
  exact congrArg (m.write w >>= ·) (funext fun next => (commit_eq_foldlM next rest).symm)

theorem commit_singleton (m : Memory) (w : Write) : m.commit [w] = m.write w := by
  rw [commit_cons]
  cases m.write w with
  | error e => rfl
  | ok next => exact commit_nil next

theorem commit_append (m : Memory) (first second : Batch) :
    m.commit (first ++ second) = m.commit first >>= fun next => next.commit second := by
  rw [commit_eq_foldlM, List.foldlM_append, ← commit_eq_foldlM]
  exact congrArg (m.commit first >>= ·) (funext fun next => (commit_eq_foldlM next second).symm)

theorem write_eq_ok {m next : Memory} {w : Write} (h : m.write w = .ok next) :
    ∃ document, outcome w (m.find? w.id) m.lastSequence = .ok (document, next.lastSequence) ∧
      next.find? w.id = document ∧ ∀ id, id ≠ w.id → next.find? id = m.find? id := by
  obtain ⟨⟨document, lastSequence⟩, houtcome, hnext⟩ := bind_eq_ok.mp h
  cases Except.ok.inj hnext
  refine ⟨document, houtcome, find?_settle_self m.documents w.id document, ?_⟩
  intro id hne
  exact find?_settle_of_ne m.documents document hne

theorem find?_commit_of_forall_ne {m next : Memory} {batch : Batch} {id : DocId}
    (h : m.commit batch = .ok next) (hne : ∀ w ∈ batch, w.id ≠ id) :
    next.find? id = m.find? id := by
  induction batch generalizing m with
  | nil =>
      rw [commit_nil] at h
      cases h
      rfl
  | cons w rest ih =>
      rw [commit_cons] at h
      obtain ⟨middle, hwrite, hrest⟩ := bind_eq_ok.mp h
      obtain ⟨_, _, _, hothers⟩ := write_eq_ok hwrite
      rw [ih hrest fun other hother => hne other (List.mem_cons_of_mem w hother)]
      exact hothers id (hne w List.mem_cons_self).symm

end Memory

end Jobyard
