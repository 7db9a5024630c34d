import ThermalSearch.Tempering.Exchange

namespace ThermalSearch.Tempering

/-!
# Settings of a tempering run
-/

/-- How the temperatures between the lowest and the highest are chosen. -/
inductive Spacing where
  /-- In equal ratios, once and for all. -/
  | geometric
  /-- In equal ratios at first, then moved towards an even rate of exchanges. -/
  | adaptive
deriving DecidableEq, Repr, Inhabited

def Spacing.label : Spacing → String
  | .geometric => "Geometric"
  | .adaptive => "Adaptive"

structure Config (α : Type) where
  replicas : Nat
  minTemperature : α
  maxTemperature : α
  spacing : Spacing
  /-- How many moves each replica makes between two rounds of exchanges. -/
  sweepsPerSwap : Nat
  /-- How many rounds of exchanges there are. -/
  totalSwaps : Nat
  seed : UInt64
  /-- Whether the replicas move at the same time. They share nothing, so it makes no difference
  to what a run returns. -/
  parallel : Bool

/-- A ladder has two ends. -/
def minReplicas : Nat := 2

namespace Config

variable {α : Type} [Scalar α]

/-- The settings that hold where nothing else is said. -/
def standard : Config α where
  replicas := 8
  minTemperature := 0.1
  maxTemperature := 100.0
  spacing := .geometric
  sweepsPerSwap := 50
  totalSwaps := 200
  seed := 0
  parallel := false

/-- Settings agree when all their parts do; the numbers are compared as numbers, so an undefined
one agrees with nothing. -/
instance : BEq (Config α) where
  beq a b :=
    a.replicas == b.replicas && a.minTemperature == b.minTemperature &&
      a.maxTemperature == b.maxTemperature && a.spacing == b.spacing &&
      a.sweepsPerSwap == b.sweepsPerSwap && a.totalSwaps == b.totalSwaps && a.seed == b.seed &&
      a.parallel == b.parallel

omit [Scalar α] in
/-- The number of replicas of a run: fewer than two are not enough to exchange states. -/
def effectiveReplicas (c : Config α) : Nat := max c.replicas minReplicas

omit [Scalar α] in
/-- Makes room for what a run keeps: the ladder, the replicas, the tallies of their pairs and the
list of the traces, each of which gets room for the energies of all rounds. -/
def reserve (c : Config α) : Except Fault Unit := do
  Table.reserve c.effectiveReplicas 1
  Table.reserve c.effectiveReplicas Replica.words
  Table.reserve (c.effectiveReplicas - 1) Tally.words
  Table.reserve c.effectiveReplicas Table.header
  Table.reserve c.totalSwaps 1

/-- Checks the settings; of several broken rules the first one is reported. -/
def validate (c : Config α) : Except (Rejection α) Unit := do
  requireFinite .minTemperature c.minTemperature
  requireFinite .maxTemperature c.maxTemperature
  refuseIf (c.minTemperature ≤ 0.0) .minTemperatureNotPositive
  refuseIf (c.minTemperature ≥ c.maxTemperature)
    (.emptyTemperatureRange c.minTemperature c.maxTemperature)

end Config

end ThermalSearch.Tempering
