import ThermalSearch.Table

namespace ThermalSearch.Ladder

/-!
# Temperature ladders

A ladder lists the temperatures of the replicas from the coldest to the hottest. It starts out
in equal ratios. Adapting it moves the inner rungs so that exchanges between neighbours happen
at about the same rate everywhere: a rung whose exchanges are rare goes towards the middle of its
neighbours, one whose exchanges are frequent towards the neighbour that is farther off.

A rung moves only to a place strictly between its neighbours, so an increasing ladder stays one,
and its ends stay where they are.
-/

variable {α : Type} [Scalar α]

/-- How many rounds lie between two adaptations. -/
def adaptInterval : Nat := 10

/-- The rate of exchanges that adaptation steers towards. -/
def targetRate : α := 0.234

/-- A rate this close to the target leaves its rung alone. -/
def tolerance : α := 0.05

/-- The part of the way to its goal that a rung moves at once. -/
def stride : α := 0.1

/-- The rung with number `i` of a ladder of `n` rungs in equal ratios. The last one is the
highest temperature itself, not its approximation as a power. -/
def geometricRung (lowest highest : α) (n i : Nat) : α :=
  if i + 1 = n then highest
  else lowest * Scalar.pow (highest / lowest) (Scalar.ofNat i / Scalar.ofNat (n - 1))

/-- A ladder of `n` rungs in equal ratios. A single rung is the lowest temperature. -/
def geometric (lowest highest : α) (n : Nat) : List α :=
  if n = 1 then [lowest] else (List.range n).map (geometricRung lowest highest n)

/-- A ladder in equal ratios, if there can be one of so many rungs. -/
def build (lowest highest : α) (n : Nat) : Except Fault (List α) := do
  Table.reserve n 1
  return geometric lowest highest n

/-! ## Adaptation -/

/-- Where a rung `t` between `low` and `high` is drawn to at a given rate of exchanges; nowhere
when the rate is near the target, or undefined. -/
def goal? (low t high rate : α) : Option α :=
  if rate < targetRate - tolerance then some (Scalar.sqrt (low * high))
  else if rate > targetRate + tolerance then
    some (if Scalar.ln (t / low) > Scalar.ln (high / t) then low else high)
  else none

/-- The new place of a rung, if it moves. -/
def relocate? (low t high rate : α) : Option α :=
  match goal? low t high rate with
  | none => none
  | some goal =>
    let next := t + stride * (goal - t)
    if next > low ∧ next < high ∧ (next != t) = true then some next else none

/-- Adapts the rungs above `low`, which is in its new place already, and counts those that move.
The rate of a rung is the mean of the rates of its two pairs. -/
def adaptAbove (low : α) : List α → List α → List α × Nat
  | t :: high :: rungs, below :: above :: rates =>
    let place := relocate? low t high ((below + above) / 2.0)
    let (rest, moved) := adaptAbove (place.getD t) (high :: rungs) (above :: rates)
    (place.getD t :: rest, if place.isSome then moved + 1 else moved)
  | rungs, _ => (rungs, 0)

/-- Adapts a ladder to the rates of exchanges of its pairs, the coldest pair first, and counts
the rungs that move. Nothing moves without an inner rung, or when there is not one rate for
each pair. -/
def adapt (temperatures rates : List α) : List α × Nat :=
  match temperatures with
  | low :: rungs =>
    if temperatures.length < 3 ∨ rates.length + 1 ≠ temperatures.length then (temperatures, 0)
    else
      let (rungs, moved) := adaptAbove low rungs rates
      (low :: rungs, moved)
  | [] => ([], 0)

/-- Whether every temperature lies below the next. -/
def isIncreasing : List α → Bool
  | a :: b :: rest => decide (a < b) && isIncreasing (b :: rest)
  | _ => true

end ThermalSearch.Ladder
