import ThermalSearch.Acceptance
import ThermalSearch.Proposal

/-!
# Trials

Both engines begin a move in the same way: a candidate is proposed and evaluated, and the Metropolis
rule decides whether it is entered. What such a trial looks at is the present state with its energy,
the temperature and the generator; what an engine makes of its outcome is up to the engine.
-/

namespace ThermalSearch

variable {α : Type}

/-- What came of a proposal. -/
structure Trial (α : Type) where
  accepted : Bool
  candidate : State α
  energy : α
  generator : Generator

/-- Proposes a candidate, evaluates it and decides on it. -/
def Problem.trial [Scalar α] (problem : Problem α) (state : State α) (energy temperature : α)
    (g : Generator) : Except Fault (Trial α) := do
  let (candidate, g) ← problem.propose state g
  let next ← problem.energy candidate
  let (accepted, g) := (metropolis energy next temperature).decide g
  return { accepted, candidate, energy := next, generator := g }

/-- A move that judges a proposal consists of a trial and of what is made of its outcome. -/
theorem Problem.judge_eq_map_trial [Scalar α] {σ : Type} (problem : Problem α) (state : State α)
    (energy temperature : α) (g : Generator)
    (judged : Bool → State α → α → Generator → σ) :
    (do
      let (candidate, g) ← problem.propose state g
      let next ← problem.energy candidate
      let (accepted, g) := (metropolis energy next temperature).decide g
      return judged accepted candidate next g : Except Fault σ) =
    (problem.trial state energy temperature g).map fun t =>
      judged t.accepted t.candidate t.energy t.generator := by
  unfold trial
  cases problem.propose state g with
  | error fault => rfl
  | ok proposed =>
    dsimp only [bind, Except.bind]
    cases problem.energy proposed.1 with
    | error fault => rfl
    | ok next => rfl

end ThermalSearch
