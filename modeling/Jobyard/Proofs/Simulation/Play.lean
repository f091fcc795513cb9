import Jobyard.Connection.Basic
import Jobyard.Proofs.Simulation.Yard

/-!
Runs that are computed. A list of moves says which program takes a turn; moves that are not
possible are passed over, so that every list of moves leads to a run.
-/

namespace Jobyard.Simulation

inductive Move (τ : Type)
  | begin (n : Nat) (task : τ)
  | clock (time : Instant)
  | turn (n : Nat)

namespace Move

variable {τ : Type}

/-- A program from its beginning, with at most so many turns and nobody in between. -/
def whole (n : Nat) (task : τ) (turns : Nat) : List (Move τ) :=
  .begin n task :: List.replicate turns (.turn n)

theorem begin_mem_whole {n k : Nat} {task other : τ} {turns : Nat} :
    .begin n task ∈ whole k other turns ↔ n = k ∧ task = other := by
  simp [whole, List.mem_replicate]

end Move

def World.isFresh (w : World) : Request → Bool
  | .freshText => !w.issued.contains (freshText (w.issued.length + 1))
  | _ => true

theorem World.reacts_answer {w : World} {request : Request} (h : w.isFresh request) :
    w.Reacts request ((answer request).run w).1 ((answer request).run w).2 := by
  cases request with
  | freshText =>
      have hfresh : freshText (w.issued.length + 1) ∉ w.issued := by simpa [isFresh] using h
      exact ⟨hfresh, rfl⟩
  | store store call => exact .inl ⟨rfl, rfl⟩
  | _ => exact ⟨rfl, rfl⟩

namespace Yard

variable {τ ρ : Type}

def proceed? (y : Yard τ ρ) (n : Nat) : Option (Event τ ρ × Yard τ ρ) :=
  match y.threads n with
  | some ⟨task, log, .call request next⟩ =>
    let answered := (World.answer request).run y.world
    let thread : Thread τ ρ := ⟨task, ⟨request, answered.1⟩ :: log, next answered.1⟩
    if y.world.isFresh request then some (.proceeded n thread, y.seat n thread answered.2)
    else none
  | _ => none

def move? (program : τ → Program ρ) (y : Yard τ ρ) : Move τ → Option (Event τ ρ × Yard τ ρ)
  | .begin n task =>
    if (y.threads n).isNone then
      some (.began n task, y.seat n ⟨task, [], program task⟩ y.world)
    else none
  | .clock time => some (.clocked time, ⟨{ y.world with clock := time }, y.threads⟩)
  | .turn n => y.proceed? n

def play (program : τ → Program ρ) : List (Move τ) → List (Event τ ρ) × Yard τ ρ →
    List (Event τ ρ) × Yard τ ρ
  | [], state => state
  | move :: rest, (history, y) =>
    match y.move? program move with
    | some (event, next) => play program rest (event :: history, next)
    | none => play program rest (history, y)

variable {program : τ → Program ρ} {admits : τ → Prop} {y next : Yard τ ρ} {event : Event τ ρ}

theorem step_of_proceed {n : Nat} (h : y.proceed? n = some (event, next)) :
    Step program admits y event next := by
  unfold proceed? at h
  split at h
  · rename_i task log request following hthread
    simp only at h
    split at h
    · rename_i hfresh
      cases h
      exact .proceeded n task log request following _ _ hthread (World.reacts_answer hfresh)
    · cases h
  · cases h

theorem threads_of_proceed {n : Nat} (h : y.proceed? n = some (event, next)) :
    ∃ thread, event = .proceeded n thread ∧ next.threads n = some thread := by
  unfold proceed? at h
  split at h
  · simp only at h
    split at h
    · cases h
      exact ⟨_, rfl, threads_seat_self _ _ _ _⟩
    · cases h
  · cases h

theorem step_of_move {move : Move τ} (hadmits : ∀ n task, move = .begin n task → admits task)
    (h : y.move? program move = some (event, next)) : Step program admits y event next := by
  cases move with
  | begin n task =>
      simp only [move?] at h
      split at h
      · rename_i hfree
        cases h
        exact .began n task (Option.isNone_iff_eq_none.mp hfree) (hadmits n task rfl)
      · cases h
  | clock time =>
      cases h
      exact .clocked time
  | turn n => exact step_of_proceed h

theorem run_play {moves : List (Move τ)} {start : Yard τ ρ} {history : List (Event τ ρ)}
    (hadmits : ∀ n task, .begin n task ∈ moves → admits task)
    (hrun : Run program admits start history y) :
    Run program admits start (play program moves (history, y)).1
      (play program moves (history, y)).2 := by
  induction moves generalizing history y with
  | nil => exact hrun
  | cons move rest ih =>
      have hrest : ∀ n task, .begin n task ∈ rest → admits task :=
        fun n task hmem => hadmits n task (List.mem_cons_of_mem move hmem)
      unfold play
      split
      · rename_i event next hmove
        have hfirst : ∀ n task, move = .begin n task → admits task := by
          rintro n task rfl
          exact hadmits n task List.mem_cons_self
        exact ih hrest (.step hrun (step_of_move hfirst hmove))
      · exact ih hrest hrun

end Yard

namespace Sample

def queue : JobQueue := ⟨⟨0⟩, ⟨0⟩, ⟨1000⟩, ⟨5000000000⟩⟩

def connection : Connection := ⟨⟨0⟩, .single queue⟩

end Sample

end Jobyard.Simulation
