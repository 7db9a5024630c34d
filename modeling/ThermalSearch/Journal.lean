import ThermalSearch.Annealing.Cooling

namespace ThermalSearch

/-!
# The journal of a run

What the engines and solvers report while they work: events with their figures. An event says
what happened; its level, its wording and the names of its figures are rendered from it.
-/

/-- Why an annealing run ended. -/
inductive StopReason where
  | budgetSpent
  | frozen
  | cancelled
deriving DecidableEq, Repr

def StopReason.label : StopReason → String
  | .budgetSpent => "iteration budget spent"
  | .frozen => "final temperature reached"
  | .cancelled => "cancelled"

inductive Event (α : Type) where
  | annealingStarted (schedule : CoolingSchedule) (initialTemperature finalTemperature : α)
      (maxIterations : Nat) (initialEnergy : α)
  | reheated (iterations : Nat) (temperature bestEnergy : α)
  | annealingFinished (reason : StopReason) (iterations accepts reheats : Nat)
      (bestEnergy finalTemperature : α)
  | replicasClamped (requested used : Nat)
  | temperingStarted (replicas sweepsPerSwap totalSwaps : Nat) (parallel : Bool)
  | ladderAdapted (rounds moved : Nat)
  | temperingFinished (rounds : Nat) (bestEnergy : α) (cancelled : Bool)
  | quboAnnealed (bits : Nat) (isingEnergy : α)
  | quboTempered (bits : Nat) (isingEnergy : α)
  | pottsAnnealed (spins states : Nat) (bestEnergy : α)
deriving Repr

abbrev Journal (α : Type) := List (Event α)

/-- The result of a run with what it cost and what it reported. -/
structure Report (α ρ : Type) where
  result : ρ
  /-- How many energies were evaluated. -/
  evaluations : Nat
  journal : Journal α

/-! ## Rendering -/

inductive Level where
  | trace
  | debug
  | warn
deriving DecidableEq, Repr

def Level.label : Level → String
  | .trace => "TRACE"
  | .debug => "DEBUG"
  | .warn => "WARN"

/-- A figure of an event. -/
inductive Figure (α : Type) where
  | count (n : Nat)
  | number (x : α)
  | flag (b : Bool)
  | word (text : String)
deriving Repr

namespace Event

variable {α : Type}

def level : Event α → Level
  | .replicasClamped .. => .warn
  | .reheated .. | .ladderAdapted .. => .trace
  | _ => .debug

def message : Event α → String
  | .annealingStarted .. => "starting simulated annealing"
  | .reheated .. => "reheating"
  | .annealingFinished .. => "simulated annealing finished"
  | .replicasClamped .. => "too few replicas requested, clamping"
  | .temperingStarted .. => "starting parallel tempering"
  | .ladderAdapted .. => "adapted temperature ladder"
  | .temperingFinished .. => "parallel tempering finished"
  | .quboAnnealed .. => "QUBO annealing finished"
  | .quboTempered .. => "QUBO tempering finished"
  | .pottsAnnealed .. => "Potts annealing finished"

def figures : Event α → List (String × Figure α)
  | .annealingStarted schedule initial final maxIterations energy =>
    [("schedule", .word schedule.label), ("initial_temp", .number initial),
      ("final_temp", .number final), ("max_iterations", .count maxIterations),
      ("initial_energy", .number energy)]
  | .reheated iterations temperature best =>
    [("iterations", .count iterations), ("temperature", .number temperature),
      ("best_energy", .number best)]
  | .annealingFinished reason iterations accepts reheats best temperature =>
    [("reason", .word reason.label), ("iterations", .count iterations),
      ("accepts", .count accepts), ("reheats", .count reheats), ("best_energy", .number best),
      ("final_temperature", .number temperature)]
  | .replicasClamped requested used => [("requested", .count requested), ("used", .count used)]
  | .temperingStarted replicas sweeps swaps parallel =>
    [("replicas", .count replicas), ("sweeps_per_swap", .count sweeps),
      ("total_swaps", .count swaps), ("parallel", .flag parallel)]
  | .ladderAdapted rounds moved => [("rounds", .count rounds), ("moved", .count moved)]
  | .temperingFinished rounds best cancelled =>
    [("rounds", .count rounds), ("best_energy", .number best), ("cancelled", .flag cancelled)]
  | .quboAnnealed bits energy | .quboTempered bits energy =>
    [("variables", .count bits), ("ising_energy", .number energy)]
  | .pottsAnnealed spins states best =>
    [("spins", .count spins), ("states", .count states), ("best_energy", .number best)]

end Event

end ThermalSearch
