import Jobyard.Proofs.Counter.Tally
import Jobyard.Proofs.Document.RoundTrip

/-!
Collections as plain values: for each key a set with scores, a list, a hash and a number. What an
edit does to such values is what it does to the bodies of the documents that hold them.
-/

namespace Jobyard

open Counter

def Edit.additions : Edit → List Addition
  | addToCounter key delta _ => [(key, delta)]
  | _ => []

theorem Edit.additions_of_not_addition {e : Edit} (h : e.isAddition = false) :
    e.additions = [] := by
  cases e with
  | addToCounter => cases h
  | _ => rfl

structure Plain where
  sets : String → Dict String Double
  lists : String → List String
  hashes : String → Dict String String
  counters : String → Int

namespace Plain

def empty : Plain := ⟨fun _ => ∅, fun _ => [], fun _ => ∅, fun _ => 0⟩

def changed {α : Type} (values : String → α) (key : String) (f : α → α) : String → α :=
  fun other => if other = key then f (values other) else values other

def inSet (key : String) (f : Dict String Double → Dict String Double) (p : Plain) : Plain :=
  { p with sets := changed p.sets key f }

def inList (key : String) (f : List String → List String) (p : Plain) : Plain :=
  { p with lists := changed p.lists key f }

def inHash (key : String) (f : Dict String String → Dict String String) (p : Plain) : Plain :=
  { p with hashes := changed p.hashes key f }

def inCounter (key : String) (f : Int → Int) (p : Plain) : Plain :=
  { p with counters := changed p.counters key f }

/-- What an edit does; expiries are not seen here. -/
def apply (p : Plain) : Edit → Plain
  | .addToCounter key delta _ => p.inCounter key (· + delta)
  | .addToSet key member score => p.inSet key fun scores => scores.insert member score
  | .addRangeToSet key members =>
    p.inSet key fun scores => scores.insertMany (members.map fun member => (member, .zero))
  | .removeFromSet key member => p.inSet key fun scores => scores.erase member
  | .removeSet key => p.inSet key fun _ => ∅
  | .appendToList key value => p.inList key fun values => values ++ [value]
  | .removeFromList key value => p.inList key fun values => values.filter (· ≠ value)
  | .trimList key first last => p.inList key fun values => slice first last values
  | .setFields key fields => p.inHash key fun entries => entries.insertMany fields
  | .removeHash key => p.inHash key fun _ => ∅
  | .expireJob .. | .persistJob _ | .setJobState .. => p
  | .expireSet .. | .persistSet _ | .expireList .. | .persistList _ => p
  | .expireHash .. | .persistHash _ => p

@[simp] theorem changed_self {α : Type} (values : String → α) (key : String) (f : α → α) :
    changed values key f key = f (values key) := if_pos rfl

@[simp] theorem changed_id {α : Type} (values : String → α) (key : String) :
    changed values key (fun value => value) = values :=
  funext fun other => ite_self (values other)

@[simp] theorem inSet_id (p : Plain) (key : String) : p.inSet key (fun scores => scores) = p := by
  simp [inSet]

@[simp] theorem inList_id (p : Plain) (key : String) : p.inList key (fun values => values) = p := by
  simp [inList]

@[simp] theorem inHash_id (p : Plain) (key : String) :
    p.inHash key (fun entries => entries) = p := by
  simp [inHash]

theorem changed_of_ne {α : Type} (values : String → α) {key other : String} (f : α → α)
    (hne : other ≠ key) : changed values key f other = values other := if_neg hne

structure ChangesOnly (id : DocId) (p q : Plain) : Prop where
  sets : ∀ key, id ≠ Document.idFor ScoredSet key → q.sets key = p.sets key
  lists : ∀ key, id ≠ Document.idFor ValueList key → q.lists key = p.lists key
  hashes : ∀ key, id ≠ Document.idFor FieldMap key → q.hashes key = p.hashes key
  counters : ∀ key, id ≠ Document.idFor Counter key → q.counters key = p.counters key

theorem changed_of_idFor_ne {α ν : Type} [Document α] (values : String → ν) {key other : String}
    (f : ν → ν) (hne : Document.idFor α key ≠ Document.idFor α other) :
    changed values key f other = values other :=
  changed_of_ne values f fun hkey => hne (congrArg (Document.idFor α) hkey.symm)

variable (p : Plain) (key : String)

theorem changesOnly_self (id : DocId) : p.ChangesOnly id p :=
  ⟨fun _ _ => rfl, fun _ _ => rfl, fun _ _ => rfl, fun _ _ => rfl⟩

theorem changesOnly_inSet (f : Dict String Double → Dict String Double) :
    p.ChangesOnly (Document.idFor ScoredSet key) (p.inSet key f) :=
  ⟨fun _ hne => changed_of_idFor_ne p.sets f hne, fun _ _ => rfl, fun _ _ => rfl, fun _ _ => rfl⟩

theorem changesOnly_inList (f : List String → List String) :
    p.ChangesOnly (Document.idFor ValueList key) (p.inList key f) :=
  ⟨fun _ _ => rfl, fun _ hne => changed_of_idFor_ne p.lists f hne, fun _ _ => rfl, fun _ _ => rfl⟩

theorem changesOnly_inHash (f : Dict String String → Dict String String) :
    p.ChangesOnly (Document.idFor FieldMap key) (p.inHash key f) :=
  ⟨fun _ _ => rfl, fun _ _ => rfl, fun _ hne => changed_of_idFor_ne p.hashes f hne, fun _ _ => rfl⟩

theorem changesOnly_inCounter (f : Int → Int) :
    p.ChangesOnly (Document.idFor Counter key) (p.inCounter key f) :=
  ⟨fun _ _ => rfl, fun _ _ => rfl, fun _ _ => rfl,
    fun _ hne => changed_of_idFor_ne p.counters f hne⟩

theorem changesOnly_apply (e : Edit) : p.ChangesOnly e.id (p.apply e) := by
  cases e with
  | addToCounter key => exact p.changesOnly_inCounter key _
  | addToSet key | addRangeToSet key | removeFromSet key | removeSet key =>
      exact p.changesOnly_inSet key _
  | appendToList key | removeFromList key | trimList key => exact p.changesOnly_inList key _
  | setFields key | removeHash key => exact p.changesOnly_inHash key _
  | _ => exact p.changesOnly_self _

theorem counters_apply (e : Edit) :
    (p.apply e).counters key = p.counters key + gain key e.additions := by
  cases e with
  | addToCounter other delta length =>
      change changed p.counters other (· + delta) key = _ + gain key [(other, delta)]
      by_cases hkey : key = other
      · subst hkey
        rw [changed_self, gain_self]
      · rw [changed_of_ne _ _ hkey, gain_of_ne (Ne.symm hkey), Int.add_zero]
  | _ => exact (Int.add_zero _).symm

end Plain

/-- A body that holds a document; a missing body stands for the blank one. -/
def FindOrCreate.Stands {α : Type} [FindOrCreate α] (document : α) : Option Json → Prop
  | none => document = blank
  | some body => body = Document.encode document

open FindOrCreate

theorem Document.read_of_stands {α : Type} [FindOrCreate α] {document : α} {body : Option Json}
    (h : Stands document body) (hlasting : Lasting document) (id : DocId) :
    ∃ found, Document.read α id body = .ok found ∧ found.getD blank = document := by
  cases body with
  | none => exact ⟨none, rfl, Eq.symm h⟩
  | some body =>
      obtain rfl : body = encode document := h
      refine ⟨some document, ?_, rfl⟩
      simp only [read, show decode? (encode document) = some document from hlasting]

namespace Edit

def IsPlain : Edit → Bool
  | addToSet _ _ score => score.isFinite
  | expireJob .. | persistJob _ | setJobState .. => false
  | _ => true

section Alter

variable {α : Type} [FindOrCreate α] {e : Edit} {document : α} {body : Option Json}

theorem changed_of_stands (h : Stands document body) (hlasting : Document.Lasting document)
    (f : α → α) :
    ∃ next, alter.changed e body α f = .ok next ∧ Stands (f document) next := by
  obtain ⟨found, hread, rfl⟩ := Document.read_of_stands h hlasting e.id
  refine ⟨some (Document.encode (f (found.getD blank))), ?_, rfl⟩
  simp only [alter.changed, hread]
  rfl

theorem changedOrDropped_of_stands (h : Stands document body)
    (hlasting : Document.Lasting document) (f : α → α) (isEmpty : α → Bool)
    (hempty : isEmpty (f document) → f document = blank) :
    ∃ next, alter.changedOrDropped e body α f isEmpty = .ok next ∧ Stands (f document) next := by
  obtain ⟨found, hread, rfl⟩ := Document.read_of_stands h hlasting e.id
  refine ⟨_, by simp only [alter.changedOrDropped, hread]; rfl, ?_⟩
  cases hgone : isEmpty (f (found.getD blank)) with
  | true => exact hempty hgone
  | false => exact rfl

theorem filled_of_stands (h : Stands document body) (hlasting : Document.Lasting document) :
    ∃ next, alter.filled e body α = .ok next ∧ Stands document next := by
  obtain ⟨found, hread, hfound⟩ := Document.read_of_stands h hlasting e.id
  refine ⟨some (body.getD (Document.encode (blank : α))), by
    simp only [alter.filled, hread]; rfl, ?_⟩
  cases body with
  | none => exact congrArg Document.encode (Eq.symm h)
  | some body => exact h

end Alter

end Edit

namespace Plain

structure Shows (p : Plain) (content : DocId → Option Json) : Prop where
  set : ∀ key, Stands (ScoredSet.mk (p.sets key)) (content (Document.idFor ScoredSet key))
  finite : ∀ key, (ScoredSet.mk (p.sets key)).Finite
  list : ∀ key, Stands (ValueList.mk (p.lists key)) (content (Document.idFor ValueList key))
  hash : ∀ key, Stands (FieldMap.mk (p.hashes key)) (content (Document.idFor FieldMap key))

def revised (content : DocId → Option Json) (id : DocId) (body : Option Json) :
    DocId → Option Json :=
  fun other => if other = id then body else content other

variable {p : Plain} {content : DocId → Option Json} {key : String} {body : Option Json}

theorem revised_self (content : DocId → Option Json) (id : DocId) (body : Option Json) :
    revised content id body id = body := if_pos rfl

theorem revised_of_ne (content : DocId → Option Json) {id other : DocId} (body : Option Json)
    (hne : other ≠ id) : revised content id body other = content other := if_neg hne

theorem idFor_ne_of_key {α : Type} [Document α] {other : String} (hne : other ≠ key) :
    Document.idFor α other ≠ Document.idFor α key := fun h => hne (congrArg DocId.key h)

theorem stands_changed {α ν : Type} [FindOrCreate α] {document : ν → α} {values : String → ν}
    (h : ∀ key, Stands (document (values key)) (content (Document.idFor α key)))
    (key : String) {f : ν → ν} (hbody : Stands (document (f (values key))) body) (other : String) :
    Stands (document (changed values key f other))
      (revised content (Document.idFor α key) body (Document.idFor α other)) := by
  by_cases hkey : other = key
  · subst hkey
    rw [changed_self, revised_self]
    exact hbody
  · rw [changed_of_ne _ _ hkey, revised_of_ne _ _ (idFor_ne_of_key hkey)]
    exact h other

theorem stands_unchanged {α β : Type} [FindOrCreate α] [Document β] {document : α}
    (h : Stands document (content (Document.idFor α key)))
    (hne : Document.collection α ≠ Document.collection β) (other : String) :
    Stands document (revised content (Document.idFor β other) body (Document.idFor α key)) := by
  rw [revised_of_ne _ _ fun hid => hne (congrArg DocId.collection hid)]
  exact h

theorem Shows.congr {other : DocId → Option Json} (h : p.Shows content)
    (hsame : ∀ id, id.collection ≠ Document.collection Counter → other id = content id) :
    p.Shows other where
  set key := hsame (Document.idFor ScoredSet key) (of_decide_eq_false rfl) ▸ h.set key
  finite := h.finite
  list key := hsame (Document.idFor ValueList key) (of_decide_eq_false rfl) ▸ h.list key
  hash key := hsame (Document.idFor FieldMap key) (of_decide_eq_false rfl) ▸ h.hash key

theorem Shows.inSet (h : p.Shows content) (key : String)
    {f : Dict String Double → Dict String Double}
    (hbody : Stands (ScoredSet.mk (f (p.sets key))) body)
    (hfinite : (ScoredSet.mk (f (p.sets key))).Finite) :
    (p.inSet key f).Shows (revised content (Document.idFor ScoredSet key) body) where
  set := stands_changed h.set key hbody
  finite other := by
    by_cases hkey : other = key
    · subst hkey
      change ScoredSet.Finite ⟨changed p.sets other f other⟩
      rw [changed_self]
      exact hfinite
    · change ScoredSet.Finite ⟨changed p.sets key f other⟩
      rw [changed_of_ne _ _ hkey]
      exact h.finite other
  list other := stands_unchanged (h.list other) (by decide) key
  hash other := stands_unchanged (h.hash other) (by decide) key

theorem Shows.inList (h : p.Shows content) (key : String) {f : List String → List String}
    (hbody : Stands (ValueList.mk (f (p.lists key))) body) :
    (p.inList key f).Shows (revised content (Document.idFor ValueList key) body) where
  set other := stands_unchanged (h.set other) (by decide) key
  finite := h.finite
  list := stands_changed h.list key hbody
  hash other := stands_unchanged (h.hash other) (by decide) key

theorem Shows.inHash (h : p.Shows content) (key : String)
    {f : Dict String String → Dict String String}
    (hbody : Stands (FieldMap.mk (f (p.hashes key))) body) :
    (p.inHash key f).Shows (revised content (Document.idFor FieldMap key) body) where
  set other := stands_unchanged (h.set other) (by decide) key
  finite := h.finite
  list other := stands_unchanged (h.list other) (by decide) key
  hash := stands_changed h.hash key hbody

theorem Shows.apply (h : p.Shows content) {e : Edit} (hplain : e.IsPlain)
    (hadds : e.isAddition = false) (now : Instant) :
    ∃ body, e.alter now (content e.id) = .ok body ∧
      (p.apply e).Shows (revised content e.id body) := by
  cases e with
  | expireJob | persistJob | setJobState => cases hplain
  | addToCounter => cases hadds
  | addToSet key member score =>
      have hfinite := (h.finite key).insert member hplain
      obtain ⟨body, halter, hbody⟩ := Edit.changed_of_stands (e := .addToSet key member score)
        (h.set key) (h.finite key).lasting fun s => ⟨s.scores.insert member score⟩
      exact ⟨body, halter, h.inSet key hbody hfinite⟩
  | addRangeToSet key members =>
      have hzero : ∀ entry ∈ members.map fun member => (member, Double.zero),
          entry.2.isFinite := by
        intro entry hentry
        obtain ⟨member, _, rfl⟩ := List.mem_map.mp hentry
        rfl
      obtain ⟨body, halter, hbody⟩ := Edit.changed_of_stands (e := .addRangeToSet key members)
        (h.set key) (h.finite key).lasting fun s =>
          ⟨s.scores.insertMany (members.map fun member => (member, Double.zero))⟩
      exact ⟨body, halter, h.inSet key hbody ((h.finite key).insertMany hzero)⟩
  | removeFromSet key member =>
      obtain ⟨body, halter, hbody⟩ := Edit.changedOrDropped_of_stands
        (e := .removeFromSet key member) (h.set key) (h.finite key).lasting
        (fun s => ⟨s.scores.erase member⟩) (fun s => s.scores.isEmpty)
        fun hempty => congrArg ScoredSet.mk (Dict.ext (List.isEmpty_iff.mp hempty))
      exact ⟨body, halter, h.inSet key hbody ((h.finite key).erase member)⟩
  | removeSet key => exact ⟨none, rfl, h.inSet key rfl ScoredSet.finite_blank⟩
  | expireSet key | persistSet key =>
      obtain ⟨body, halter, hbody⟩ :=
        Edit.filled_of_stands (e := .persistSet key) (h.set key) (h.finite key).lasting
      refine ⟨body, halter, ?_⟩
      have hshows := h.inSet key (f := fun scores => scores) hbody (h.finite key)
      rwa [inSet_id] at hshows
  | appendToList key value =>
      obtain ⟨body, halter, hbody⟩ := Edit.changed_of_stands (e := .appendToList key value)
        (h.list key) (ValueList.lasting _) fun l => ⟨l.values ++ [value]⟩
      exact ⟨body, halter, h.inList key hbody⟩
  | removeFromList key value =>
      obtain ⟨body, halter, hbody⟩ := Edit.changedOrDropped_of_stands
        (e := .removeFromList key value) (h.list key) (ValueList.lasting _)
        (fun l => ⟨l.values.filter (· ≠ value)⟩) (fun l => l.values.isEmpty)
        fun hempty => congrArg ValueList.mk (List.isEmpty_iff.mp hempty)
      exact ⟨body, halter, h.inList key hbody⟩
  | trimList key first last =>
      obtain ⟨body, halter, hbody⟩ := Edit.changedOrDropped_of_stands
        (e := .trimList key first last) (h.list key) (ValueList.lasting _)
        (fun l => l.trim first last) (fun l => l.values.isEmpty)
        fun hempty => congrArg ValueList.mk (List.isEmpty_iff.mp hempty)
      exact ⟨body, halter, h.inList key hbody⟩
  | expireList key | persistList key =>
      obtain ⟨body, halter, hbody⟩ :=
        Edit.filled_of_stands (e := .persistList key) (h.list key) (ValueList.lasting _)
      refine ⟨body, halter, ?_⟩
      have hshows := h.inList key (f := fun values => values) hbody
      rwa [inList_id] at hshows
  | setFields key fields =>
      obtain ⟨body, halter, hbody⟩ := Edit.changed_of_stands (e := .setFields key fields)
        (h.hash key) (FieldMap.lasting _) fun hash => ⟨hash.fields.insertMany fields⟩
      exact ⟨body, halter, h.inHash key hbody⟩
  | removeHash key => exact ⟨none, rfl, h.inHash key rfl⟩
  | expireHash key | persistHash key =>
      obtain ⟨body, halter, hbody⟩ :=
        Edit.filled_of_stands (e := .persistHash key) (h.hash key) (FieldMap.lasting _)
      refine ⟨body, halter, ?_⟩
      have hshows := h.inHash key (f := fun entries => entries) hbody
      rwa [inHash_id] at hshows

end Plain

end Jobyard
