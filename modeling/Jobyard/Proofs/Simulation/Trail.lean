import Jobyard.Proofs.Simulation.Play

/-!
Runs that keep the states they went through.
-/

namespace Jobyard.Simulation

structure Stage (τ ρ : Type) where
  event : Event τ ρ
  yard : Yard τ ρ

namespace Yard

variable {τ ρ : Type} {program : τ → Program ρ} {admits : τ → Prop} {y last : Yard τ ρ}

/-- Turns one after the other, the latest first. -/
inductive Trail (program : τ → Program ρ) (admits : τ → Prop) (y : Yard τ ρ) :
    List (Stage τ ρ) → Yard τ ρ → Prop
  | refl : Trail program admits y [] y
  | step {stages : List (Stage τ ρ)} {event : Event τ ρ} {middle last : Yard τ ρ} :
    Trail program admits y stages middle → Step program admits middle event last →
      Trail program admits y (⟨event, last⟩ :: stages) last

/-- As `play`, with the states. -/
def stroll (program : τ → Program ρ) : List (Move τ) → List (Stage τ ρ) × Yard τ ρ →
    List (Stage τ ρ) × Yard τ ρ
  | [], state => state
  | move :: rest, (stages, y) =>
    match y.move? program move with
    | some (event, next) => stroll program rest (⟨event, next⟩ :: stages, next)
    | none => stroll program rest (stages, y)

theorem trail_stroll {moves : List (Move τ)} {start : Yard τ ρ} {stages : List (Stage τ ρ)}
    (hadmits : ∀ n task, .begin n task ∈ moves → admits task)
    (htrail : Trail program admits start stages y) :
    Trail program admits start (stroll program moves (stages, y)).1
      (stroll program moves (stages, y)).2 := by
  induction moves generalizing stages y with
  | nil => exact htrail
  | cons move rest ih =>
      have hrest : ∀ n task, .begin n task ∈ rest → admits task :=
        fun n task hmem => hadmits n task (List.mem_cons_of_mem move hmem)
      unfold stroll
      split
      · rename_i event next hmove
        have hfirst : ∀ n task, move = .begin n task → admits task := by
          rintro n task rfl
          exact hadmits n task List.mem_cons_self
        exact ih hrest (.step htrail (step_of_move hfirst hmove))
      · exact ih hrest htrail

end Yard

end Jobyard.Simulation
