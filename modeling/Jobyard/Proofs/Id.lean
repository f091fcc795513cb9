import Jobyard.Session.Kind

/-!
Identifiers of documents and their texts. A collection has no slash in its name, so that the first
slash of a text ends it, and the rest is the key. The reader does not take an empty key.
-/

namespace Jobyard.DocId

def IsFiled (id : DocId) : Prop := ∃ entry ∈ Kind.all, entry.2.collection = id.collection

theorem isFiled_iff {id : DocId} :
    id.IsFiled ↔ id.collection ∈ Kind.all.map (·.2.collection) :=
  List.mem_map.symm

section Texts

variable {id other : DocId}

theorem toList_text (id : DocId) :
    id.text.toList = id.collection.toList ++ '/' :: id.key.toList := by
  simp [text]

theorem IsFiled.collection (h : id.IsFiled) :
    '/' ∉ id.collection.toList ∧ id.collection.toList ≠ [] := by
  obtain ⟨entry, hentry, hcollection⟩ := h
  rw [← hcollection]
  have hall : ∀ entry ∈ Kind.all,
      '/' ∉ entry.2.collection.toList ∧ entry.2.collection.toList ≠ [] := by
    decide
  exact hall entry hentry

theorem IsFiled.ne_slash (h : id.IsFiled) :
    ∀ c ∈ id.collection.toList, decide (c ≠ '/') = true := by
  intro c hc
  refine decide_eq_true fun heq => h.collection.1 ?_
  rwa [← heq]

theorem takeWhile_text (h : id.IsFiled) :
    id.text.toList.takeWhile (· ≠ '/') = id.collection.toList := by
  rw [toList_text, List.takeWhile_append_of_pos h.ne_slash]
  simp

theorem dropWhile_text (h : id.IsFiled) :
    id.text.toList.dropWhile (· ≠ '/') = '/' :: id.key.toList := by
  rw [toList_text, List.dropWhile_append_of_pos h.ne_slash]
  simp

theorem eq_of_text_eq (hid : id.IsFiled) (hother : other.IsFiled) (h : id.text = other.text) :
    id = other := by
  have hcollection : id.collection.toList = other.collection.toList := by
    rw [← takeWhile_text hid, h, takeWhile_text hother]
  have hkey : '/' :: id.key.toList = '/' :: other.key.toList := by
    rw [← dropWhile_text hid, h, dropWhile_text hother]
  cases id
  cases other
  rw [mk.injEq]
  exact ⟨String.toList_inj.mp hcollection, String.toList_inj.mp (List.cons.inj hkey).2⟩

theorem parse_text (h : id.IsFiled) :
    parse id.text = if id.key = "" then .error (.document id.text) else .ok id := by
  unfold parse
  simp only [takeWhile_text h, dropWhile_text h]
  cases hkey : id.key.toList with
  | nil => rw [if_pos (String.toList_eq_nil_iff.mp hkey)]
  | cons first rest =>
      have hsome : id.key ≠ "" := by
        intro hnil
        rw [hnil] at hkey
        cases hkey
      simp only
      rw [if_neg hsome, ← hkey, List.isEmpty_eq_false_iff.mpr h.collection.2,
        String.ofList_toList, String.ofList_toList]
      rfl

theorem parse_text_iff (h : id.IsFiled) : parse id.text = .ok id ↔ id.key ≠ "" := by
  rw [parse_text h]
  split
  · rename_i hkey
    exact iff_of_false (fun h => nomatch h) fun hne => hne hkey
  · rename_i hkey
    exact iff_of_true rfl hkey

end Texts

theorem key_ofParts_eq_empty_iff {collection : String} {parts : List String} :
    (ofParts collection parts).key = "" ↔ parts = [] ∨ parts = [""] := by
  unfold ofParts
  match parts with
  | [] => simp
  | [part] => simp
  | first :: second :: rest => simp

end Jobyard.DocId
