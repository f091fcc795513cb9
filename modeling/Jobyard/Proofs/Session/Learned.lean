import Jobyard.Proofs.Program.Conduct
import Jobyard.Proofs.Session.Start

/-!
How a session comes to know versions. Whatever is done in a session, a version that it holds for a
document was there before or was shown to it by an answer of its store; and an operation asks the
store at most once.
-/

namespace Jobyard

def Exchange.Shows (exchange : Exchange) (id : DocId) (etag : Nat) : Prop :=
  match exchange with
  | ⟨.store _ (.load ids), .ok loaded⟩ =>
    ∃ d : Stored, (id, some d) ∈ ids.zip loaded ∧ d.etag = etag
  | ⟨.store _ (.query _), .ok found⟩ => ∃ d ∈ found, Stored.id d = id ∧ Stored.etag d = etag
  | _ => False

namespace Session

theorem lookup_place (id other : DocId) (t : Tracked) (tracked : List (DocId × Tracked)) :
    (place id t tracked).lookup other = if other = id then some t else tracked.lookup other := by
  induction tracked with
  | nil =>
      by_cases h : other = id
      · simp [place, h]
      · simp [place, List.lookup_cons, h, beq_false_of_ne h]
  | cons first rest ih =>
      obtain ⟨key, u⟩ := first
      unfold place
      by_cases hkey : key = id
      · subst hkey
        by_cases h : other = key
        · simp [h]
        · simp [List.lookup_cons, h, beq_false_of_ne h]
      · rw [if_neg hkey, List.lookup_cons, List.lookup_cons, ih]
        by_cases h : other = key
        · subst h
          simp [hkey]
        · simp [beq_false_of_ne h]

theorem find?_track (s : Session) (id other : DocId) (t : Tracked) :
    (s.track id t).find? other = if other = id then some t else s.find? other :=
  lookup_place id other t s.tracked

def Learned (log : Log) (s next : Session) : Prop :=
  ∀ id t etag, next.find? id = some t → t.etag = some etag →
    (∃ earlier, s.find? id = some earlier ∧ earlier.etag = some etag) ∨
      ∃ exchange ∈ log, exchange.Shows id etag

variable {log more : Log} {s middle next : Session}

theorem learned_refl (log : Log) (s : Session) : Learned log s s :=
  fun _ t _ hfound hetag => .inl ⟨t, hfound, hetag⟩

theorem Learned.mono (h : Learned log s next) (hsubset : ∀ exchange ∈ log, exchange ∈ more) :
    Learned more s next := by
  intro id t etag hfound hetag
  rcases h id t etag hfound hetag with hearlier | ⟨exchange, hmem, hshows⟩
  · exact .inl hearlier
  · exact .inr ⟨exchange, hsubset exchange hmem, hshows⟩

theorem Learned.trans (hfirst : Learned log s middle) (hsecond : Learned log middle next) :
    Learned log s next := by
  intro id t etag hfound hetag
  rcases hsecond id t etag hfound hetag with ⟨earlier, hmiddle, hsame⟩ | hshown
  · exact hfirst id earlier etag hmiddle hsame
  · exact .inr hshown

theorem learned_track (id : DocId) (t : Tracked)
    (hetag : ∀ etag, t.etag = some etag →
      (∃ earlier, s.find? id = some earlier ∧ earlier.etag = some etag) ∨
        ∃ exchange ∈ log, exchange.Shows id etag) :
    Learned log s (s.track id t) := by
  intro other u etag hfound hu
  rw [find?_track] at hfound
  split at hfound
  · rename_i hother
    subst hother
    cases hfound
    exact hetag etag hu
  · exact .inl ⟨u, hfound, hu⟩

theorem learned_put (log : Log) (s : Session) (id : DocId) (body : Json) :
    Learned log s (s.put id body) := by
  unfold put
  split
  · rename_i t ht
    exact learned_track id _ fun etag hetag => .inl ⟨t, ht, hetag⟩
  · exact learned_track id _ fun etag hetag => nomatch hetag

theorem learned_delete (log : Log) (s : Session) (id : DocId) : Learned log s (s.delete id) := by
  unfold delete
  split
  · rename_i t ht
    exact learned_track id _ fun etag hetag => .inl ⟨t, ht, hetag⟩
  · exact learned_track id _ fun etag hetag => nomatch hetag

theorem learned_absorb (s : Session) (loaded : List (DocId × Option Stored))
    (hshown : ∀ id d, (id, some d) ∈ loaded → ∃ exchange ∈ log, exchange.Shows id d.etag) :
    Learned log s (s.absorb loaded) := by
  induction loaded generalizing s with
  | nil => exact learned_refl log s
  | cons first rest ih =>
      obtain ⟨id, document⟩ := first
      have hfirst : Learned log s (s.track id (.ofLoaded document)) := by
        apply learned_track
        intro etag hetag
        cases document with
        | none => cases hetag
        | some d =>
            cases hetag
            exact .inr (hshown id d List.mem_cons_self)
      exact hfirst.trans (ih _ fun other d hmem => hshown other d (List.mem_cons_of_mem _ hmem))

theorem learned_observe (s : Session) (d : Stored)
    (hshown : ∃ exchange ∈ log, exchange.Shows d.id d.etag) : Learned log s (s.observe d) := by
  unfold observe
  split
  · exact learned_refl log s
  · apply learned_track
    intro etag hetag
    cases hetag
    exact .inr hshown

theorem learned_cleared (log : Log) (s : Session) : Learned log s s.cleared :=
  fun _ _ _ hfound _ => nomatch hfound

theorem store_put (s : Session) (id : DocId) (body : Json) : (s.put id body).store = s.store := by
  unfold put
  split <;> rfl

theorem store_delete (s : Session) (id : DocId) : (s.delete id).store = s.store := by
  unfold delete
  split <;> rfl

theorem store_absorb (s : Session) (loaded : List (DocId × Option Stored)) :
    (s.absorb loaded).store = s.store := by
  induction loaded generalizing s with
  | nil => rfl
  | cons first rest ih => exact (ih (s.track first.1 (.ofLoaded first.2))).trans rfl

theorem store_observe (s : Session) (d : Stored) : (s.observe d).store = s.store := by
  unfold observe
  split <;> rfl

end Session

end Jobyard
