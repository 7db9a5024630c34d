import ThermalSearch.Acceptance
import ThermalSearch.Annealing.Config
import ThermalSearch.Cancellation
import ThermalSearch.Journal
import ThermalSearch.Proposal

namespace ThermalSearch.Annealing

/-!
# Annealing

One Metropolis chain that is cooled as it goes. A run is a recursion on its remaining budget:
before each move it may end, because the budget is spent, because the temperature fell below the
final one, or because the watch says so. The best state is the first one that reached the least
finite energy; reheating raises the temperature and leaves the best state alone.
-/

variable {α : Type}

/-- A run between two moves. -/
structure Chain (α : Type) where
  state : State α
  energy : α
  bestState : State α
  bestEnergy : α
  temperature : α
  cooler : Cooler α
  generator : Generator
  iterations : Nat := 0
  accepts : Nat := 0
  rejects : Nat := 0
  reheats : Nat := 0
  /-- How many energies were evaluated, the initial one included. -/
  evaluations : Nat := 1
  /-- The energy after each move. -/
  energyHistory : Array α := #[]
  /-- The temperature at which each move was made. -/
  temperatureHistory : Array α := #[]
  journal : Array (Event α) := #[]

/-- What a run returns. -/
structure Result (α : Type) where
  bestState : State α
  bestEnergy : α
  iterations : Nat
  accepts : Nat
  rejects : Nat
  reheats : Nat
  energyHistory : Array α
  temperatureHistory : Array α
  finalTemperature : α
  acceptanceRatio : α
  cancelled : Bool

variable [Scalar α]

namespace Chain

def poll (c : Chain α) : Poll := { index := c.iterations, evaluations := c.evaluations }

/-- The chain before its first move, at an initial state of known energy. -/
def start (config : Config α) (initial : State α) (energy : α) : Chain α where
  state := initial
  energy := energy
  bestState := initial
  bestEnergy := energy
  temperature := config.initialTemperature
  cooler :=
    { schedule := config.cooling, alpha := config.alpha, lambda := config.huangLambda }
  generator := Generator.ofSeed config.seed
  journal := #[.annealingStarted config.cooling config.initialTemperature config.finalTemperature
    config.maxIterations energy]

/-- Enters the candidate or stays. -/
def settle (c : Chain α) (accepted : Bool) (candidate : State α) (energy : α) : Chain α :=
  if accepted then { c with state := candidate, energy := energy, accepts := c.accepts + 1 }
  else { c with rejects := c.rejects + 1 }

/-- Remembers the present state if it is the best so far. -/
def trackBest (c : Chain α) : Chain α :=
  if improves c.energy c.bestEnergy then { c with bestState := c.state, bestEnergy := c.energy }
  else c

/-- Writes the histories and passes the outcome on to the cooler. -/
def record (c : Chain α) (accepted : Bool) : Chain α :=
  { c with
    iterations := c.iterations + 1
    energyHistory := c.energyHistory.push c.energy
    temperatureHistory := c.temperatureHistory.push c.temperature
    cooler := c.cooler.observe accepted c.energy }

/-- Lowers the temperature by the schedule, or goes back to the reheat temperature when the
number of moves is a multiple of the reheat interval. -/
def cool (config : Config α) (c : Chain α) : Chain α :=
  if 0 < config.reheatInterval ∧ c.iterations % config.reheatInterval = 0 then
    { c with
      temperature := config.reheatTemperature
      reheats := c.reheats + 1
      journal := c.journal.push (.reheated c.iterations config.reheatTemperature c.bestEnergy) }
  else { c with temperature := c.cooler.nextTemperature c.temperature }

/-- One move and the cooling after it. -/
def step (problem : Problem α) (config : Config α) (c : Chain α) : Except Fault (Chain α) := do
  let (candidate, g) ← problem.propose c.state c.generator
  let energy ← problem.energy candidate
  let (accepted, g) := (metropolis c.energy energy c.temperature).decide g
  let c := { c with generator := g, evaluations := c.evaluations + 1 }
  return ((c.settle accepted candidate energy).trackBest.record accepted).cool config

/-- Moves until the budget is spent or there is another reason to stop. -/
def advance (problem : Problem α) (config : Config α) (watch : Watch) :
    Nat → Chain α → Except Fault (StopReason × Chain α)
  | 0, c => .ok (.budgetSpent, c)
  | budget + 1, c =>
    if c.temperature < config.finalTemperature then .ok (.frozen, c)
    else if watch c.poll then .ok (.cancelled, c)
    else do
      let c ← c.step problem config
      advance problem config watch budget c

def result (c : Chain α) (reason : StopReason) : Result α where
  bestState := c.bestState
  bestEnergy := c.bestEnergy
  iterations := c.iterations
  accepts := c.accepts
  rejects := c.rejects
  reheats := c.reheats
  energyHistory := c.energyHistory
  temperatureHistory := c.temperatureHistory
  finalTemperature := c.temperature
  acceptanceRatio := c.cooler.acceptanceRatio
  cancelled := reason == .cancelled

def report (c : Chain α) (reason : StopReason) : Report α (Result α) where
  result := c.result reason
  evaluations := c.evaluations
  journal := c.journal.toList ++
    [.annealingFinished reason c.iterations c.accepts c.reheats c.bestEnergy c.temperature]

end Chain

/-- Anneals from an initial state. -/
def run (problem : Problem α) (config : Config α) (watch : Watch) (initial : State α) :
    Except (Failure α) (Report α (Result α)) := do
  config.validate
  if initial.isEmpty then throw (.rejected .emptyState)
  let energy ← problem.energy initial
  let (reason, c) ←
    (Chain.start config initial energy).advance problem config watch config.maxIterations
  return c.report reason

end ThermalSearch.Annealing
