import ThermalSearch.Acceptance
import ThermalSearch.Proposal
import ThermalSearch.Table

namespace ThermalSearch.Tempering

/-!
# Replicas

A replica is one Metropolis chain on one rung of the ladder. It keeps the rung's generator, best
state and counts for itself; the state and its energy are what exchanges hand on to neighbours.
Between two rounds of exchanges no replica looks at another one, so the order in which they move
does not matter.
-/

structure Replica (α : Type) where
  state : State α
  energy : α
  generator : Generator
  bestState : State α
  bestEnergy : α
  moves : Nat := 0
  accepts : Nat := 0
  /-- How many energies were evaluated; the initial one was evaluated for all replicas at once. -/
  evaluations : Nat := 0

namespace Replica

variable {α : Type}

/-- How many 64-bit words a replica takes in memory, the numbers of its states apart: two states,
two energies, two counts and the generator. Evaluations are counted for whoever watches the run, and
take no room. -/
def words : Nat := 2 * Table.header + 4 + Generator.words

def start (initial : State α) (energy : α) (g : Generator) : Replica α where
  state := initial
  energy := energy
  generator := g
  bestState := initial
  bestEnergy := energy

variable [Scalar α]

/-- Enters the candidate, and remembers it if it is the best so far. -/
def enter (r : Replica α) (candidate : State α) (energy : α) : Replica α :=
  let r := { r with state := candidate, energy := energy, accepts := r.accepts + 1 }
  if improves energy r.bestEnergy then { r with bestState := candidate, bestEnergy := energy }
  else r

/-- One move at a temperature. -/
def move (problem : Problem α) (temperature : α) (r : Replica α) : Except Fault (Replica α) := do
  let (candidate, g) ← problem.propose r.state r.generator
  let energy ← problem.energy candidate
  let r := { r with evaluations := r.evaluations + 1 }
  let (accepted, g) := (metropolis r.energy energy temperature).decide g
  let r := { r with generator := g, moves := r.moves + 1 }
  return if accepted then r.enter candidate energy else r

/-- A number of moves at a temperature. -/
def sweep (problem : Problem α) (temperature : α) : Nat → Replica α → Except Fault (Replica α)
  | 0, r => .ok r
  | moves + 1, r => do
    let r ← r.move problem temperature
    sweep problem temperature moves r

/-- The share of moves that were accepted. -/
def acceptanceRate (r : Replica α) : α := Scalar.fraction r.accepts r.moves

end Replica

/-- Lets every replica move at the temperature of its rung. -/
def localPhase {α : Type} [Scalar α] (problem : Problem α) (sweeps : Nat) :
    List α → List (Replica α) → Except Fault (List (Replica α))
  | temperature :: temperatures, r :: replicas => do
    let r ← r.sweep problem temperature sweeps
    let replicas ← localPhase problem sweeps temperatures replicas
    return r :: replicas
  | _, replicas => .ok replicas

end ThermalSearch.Tempering
