import ThermalSearch.Cancellation
import ThermalSearch.Journal
import ThermalSearch.Tempering.Config
import ThermalSearch.Tempering.Exchange
import ThermalSearch.Tempering.Ladder

namespace ThermalSearch.Tempering

/-!
# Parallel tempering

A run keeps one replica on each rung of a temperature ladder. A round lets every replica move on
its own, takes note of the best states, and then offers neighbours an exchange of states; now and
then an adaptive ladder is moved. A run is a recursion on the rounds that are left, and may end
before any of them when the watch says so.
-/

variable {α : Type}

/-- A run between two rounds. -/
structure Ensemble (α : Type) where
  temperatures : List α
  replicas : List (Replica α)
  tallies : List Tally
  /-- Decides on exchanges; the replicas have generators of their own. -/
  generator : Generator
  bestState : State α
  bestEnergy : α
  /-- The energy on each rung after each round. -/
  traces : List (Array α)
  rounds : Nat := 0
  journal : Array (Event α)

/-- What a run returns. Lists go from the coldest rung to the hottest. -/
structure Result (α : Type) where
  bestState : State α
  bestEnergy : α
  replicaEnergies : List α
  /-- Of each pair of neighbours, the share of exchanges offered that were made. -/
  swapRates : List α
  energyTraces : List (Array α)
  temperatures : List α
  /-- Of each rung, the share of moves that were accepted. -/
  moveRates : List α
  rounds : Nat
  cancelled : Bool

/-- `n` replicas of the initial state, each with a generator split off the given one. -/
def startReplicas (initial : State α) (energy : α) :
    Nat → Generator → List (Replica α) × Generator
  | 0, g => ([], g)
  | n + 1, g =>
    let (own, g) := g.split
    let (replicas, g) := startReplicas initial energy n g
    (Replica.start initial energy own :: replicas, g)

variable [Scalar α]

namespace Ensemble

/-- How many energies were evaluated: the initial one, and those of the replicas. -/
def evaluations (e : Ensemble α) : Nat := 1 + (e.replicas.map (·.evaluations)).foldr (· + ·) 0

def poll (e : Ensemble α) : Poll := { index := e.rounds, evaluations := e.evaluations }

/-- What is reported before the first round. -/
def opening (config : Config α) : Array (Event α) :=
  let n := config.effectiveReplicas
  let started : Event α :=
    .temperingStarted n config.sweepsPerSwap config.totalSwaps config.parallel
  if n = config.replicas then #[started] else #[.replicasClamped config.replicas n, started]

/-- The ensemble before its first round, at an initial state of known energy. -/
def start (config : Config α) (initial : State α) (energy : α) : Ensemble α :=
  let n := config.effectiveReplicas
  let (replicas, g) := startReplicas initial energy n (Generator.ofSeed config.seed)
  { temperatures := Ladder.geometric config.minTemperature config.maxTemperature n
    replicas
    tallies := List.replicate (n - 1) {}
    generator := g
    bestState := initial
    bestEnergy := energy
    traces := List.replicate n #[]
    journal := opening config }

/-- Remembers the best state of a replica if it is the best of all so far. -/
def noteBest (e : Ensemble α) (r : Replica α) : Ensemble α :=
  if improves r.bestEnergy e.bestEnergy then
    { e with bestState := r.bestState, bestEnergy := r.bestEnergy }
  else e

/-- Remembers the best of the states the replicas have found. -/
def trackBest (e : Ensemble α) : Ensemble α := e.replicas.foldl noteBest e

/-- Offers exchanges, writes the traces and counts the round. -/
def exchangeStates (e : Ensemble α) : Ensemble α :=
  let after := exchangePhase e.rounds e.temperatures e.replicas e.tallies e.generator
  { e with
    replicas := after.replicas
    tallies := after.tallies
    generator := after.generator
    traces := List.zipWith (fun trace r => trace.push r.energy) e.traces after.replicas
    rounds := e.rounds + 1 }

/-- Moves the ladder towards an even rate of exchanges, judged by those since the last time. -/
def adaptLadder (e : Ensemble α) : Ensemble α :=
  let (temperatures, moved) := Ladder.adapt e.temperatures (e.tallies.map Tally.recentRate)
  { e with
    temperatures
    tallies := e.tallies.map Tally.forgetRecent
    journal := e.journal.push (.ladderAdapted e.rounds moved) }

/-- Whether the ladder is adapted after this round: an adaptive one with an inner rung, at every
tenth round. -/
def adaptsNow (config : Config α) (e : Ensemble α) : Bool :=
  config.spacing == .adaptive && decide (2 < config.effectiveReplicas) &&
    decide (e.rounds % Ladder.adaptInterval = 0)

/-- One round. -/
def round (problem : Problem α) (config : Config α) (e : Ensemble α) :
    Except Fault (Ensemble α) := do
  let replicas ← localPhase problem config.sweepsPerSwap e.temperatures e.replicas
  let e := { e with replicas }.trackBest.exchangeStates
  return if e.adaptsNow config then e.adaptLadder else e

/-- Goes through the rounds until they are over or the watch says to stop, and tells which. -/
def advance (problem : Problem α) (config : Config α) (watch : Watch) :
    Nat → Ensemble α → Except Fault (Bool × Ensemble α)
  | 0, e => .ok (false, e)
  | remaining + 1, e =>
    if watch e.poll then .ok (true, e)
    else do
      let e ← e.round problem config
      advance problem config watch remaining e

def result (e : Ensemble α) (cancelled : Bool) : Result α where
  bestState := e.bestState
  bestEnergy := e.bestEnergy
  replicaEnergies := e.replicas.map (·.energy)
  swapRates := e.tallies.map Tally.rate
  energyTraces := e.traces
  temperatures := e.temperatures
  moveRates := e.replicas.map Replica.acceptanceRate
  rounds := e.rounds
  cancelled

def report (e : Ensemble α) (cancelled : Bool) : Report α (Result α) where
  result := e.result cancelled
  evaluations := e.evaluations
  journal := e.journal.toList ++ [.temperingFinished e.rounds e.bestEnergy cancelled]

end Ensemble

/-- Tempers from an initial state. -/
def run (problem : Problem α) (config : Config α) (watch : Watch) (initial : State α) :
    Except (Failure α) (Report α (Result α)) := do
  config.validate
  if initial.isEmpty then throw (.rejected .emptyState)
  config.reserve
  let energy ← problem.energy initial
  let (cancelled, e) ←
    (Ensemble.start config initial energy).advance problem config watch config.totalSwaps
  return e.report cancelled

end ThermalSearch.Tempering
