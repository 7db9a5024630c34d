import ThermalSearch.Annealing.Cooling
import ThermalSearch.Failure

namespace ThermalSearch.Annealing

/-!
# Settings of an annealing run
-/

structure Config (α : Type) where
  initialTemperature : α
  finalTemperature : α
  cooling : CoolingSchedule
  /-- The factor of geometric cooling. -/
  alpha : α
  maxIterations : Nat
  /-- The temperature is raised after every so many moves; never, when zero. -/
  reheatInterval : Nat
  /-- The part of the initial temperature that reheating goes back to. -/
  reheatFraction : α
  seed : UInt64
  /-- How fast Huang cooling goes. -/
  huangLambda : α

namespace Config

variable {α : Type} [Scalar α]

/-- The settings that hold where nothing else is said. -/
def standard : Config α where
  initialTemperature := 100.0
  finalTemperature := 0.001
  cooling := .geometric
  alpha := 0.95
  maxIterations := 10000
  reheatInterval := 0
  reheatFraction := 0.5
  seed := 0
  huangLambda := 0.7

/-- Settings agree when all their parts do; the numbers are compared as numbers, so an undefined
one agrees with nothing. -/
instance : BEq (Config α) where
  beq a b :=
    a.initialTemperature == b.initialTemperature && a.finalTemperature == b.finalTemperature &&
      a.cooling == b.cooling && a.alpha == b.alpha && a.maxIterations == b.maxIterations &&
      a.reheatInterval == b.reheatInterval && a.reheatFraction == b.reheatFraction &&
      a.seed == b.seed && a.huangLambda == b.huangLambda

/-- Checks the settings; of several broken rules the first one is reported. -/
def validate (c : Config α) : Except (Rejection α) Unit := do
  requireFinite .initialTemperature c.initialTemperature
  requireFinite .finalTemperature c.finalTemperature
  requireFinite .coolingFactor c.alpha
  requireFinite .reheatFraction c.reheatFraction
  requireFinite .huangLambda c.huangLambda
  refuseIf (c.finalTemperature ≤ 0.0) .finalTemperatureNotPositive
  refuseIf (c.initialTemperature ≤ c.finalTemperature)
    (.nothingToCool c.initialTemperature c.finalTemperature)
  refuseIf (decide (c.alpha ≤ 0.0) || decide (c.alpha ≥ 1.0)) (.coolingFactorOutOfRange c.alpha)
  refuseIf (decide (c.reheatFraction ≤ 0.0) || decide (c.reheatFraction > 1.0))
    (.reheatFractionOutOfRange c.reheatFraction)
  refuseIf (c.huangLambda ≤ 0.0) .huangLambdaNotPositive

/-- The temperature that reheating goes back to. -/
def reheatTemperature (c : Config α) : α := c.initialTemperature * c.reheatFraction

end Config

end ThermalSearch.Annealing
