import ThermalSearch.Annealing.Run
import ThermalSearch.Model.Ising
import ThermalSearch.Model.Potts
import ThermalSearch.Tempering.Run

namespace ThermalSearch.Solver

/-!
# Solving models

A search for the least energy of a model. Every solver starts with all bits clear, all spins
down, or every Potts spin in its first state, and answers with the best state of the run, which
is never worse than the start. The constant between the energies of a QUBO and of its spin model
is left out of the search: it shifts all energies alike. A model without variables has one state,
and no run is made for it.
-/

variable {α : Type}

/-- An answer and what the search for it reported. -/
structure Solution (α β : Type) where
  answer : β
  journal : Journal α := []

variable [Scalar α]

/-- Spins are turned over one at a time. -/
def spinProblem (m : Ising α) : Problem α := { energy := m.energy, propose := flipSpin }

/-- Spins change their state one at a time. -/
def stateProblem (m : Potts α) : Problem α :=
  { energy := m.energy, propose := reassign m.states }

/-- The start of a spin search. -/
def allDown (size : Nat) : State α := List.replicate size (-(1.0))

/-- The start of a search over states. -/
def allFirst (size : Nat) : State α := List.replicate size 0.0

def requireFiniteMatrix (q : Qubo α) : Except (Rejection α) Unit :=
  if q.isFinite then .ok () else .error .matrixNotFinite

/-- Searches a QUBO by annealing. -/
def annealQubo (q : Qubo α) (config : Annealing.Config α) :
    Except (Failure α) (Solution α Bits) := do
  config.validate
  requireFiniteMatrix q
  if q.size = 0 then return { answer := [] }
  let model ← q.toIsing
  let report ← Annealing.run (spinProblem model) config .never (allDown q.size)
  return {
    answer := bitsOfSpins report.result.bestState
    journal := report.journal ++ [.quboAnnealed q.size report.result.bestEnergy] }

/-- Searches a QUBO by parallel tempering. -/
def temperQubo (q : Qubo α) (config : Tempering.Config α) :
    Except (Failure α) (Solution α Bits) := do
  config.validate
  requireFiniteMatrix q
  if q.size = 0 then return { answer := [] }
  let model ← q.toIsing
  let report ← Tempering.run (spinProblem model) config .never (allDown q.size)
  return {
    answer := bitsOfSpins report.result.bestState
    journal := report.journal ++ [.quboTempered q.size report.result.bestEnergy] }

/-- Searches a Potts model by annealing. -/
def annealPotts (m : Potts α) (config : Annealing.Config α) :
    Except (Failure α) (Solution α (List Nat)) := do
  config.validate
  if m.size = 0 then return { answer := [] }
  let report ← Annealing.run (stateProblem m) config .never (allFirst m.size)
  return {
    answer := m.decode report.result.bestState
    journal := report.journal ++ [.pottsAnnealed m.size m.states report.result.bestEnergy] }

end ThermalSearch.Solver
