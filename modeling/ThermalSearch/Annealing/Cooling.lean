import ThermalSearch.Scalar

namespace ThermalSearch

/-!
# Cooling

After every move of an annealing run the temperature is lowered. The schedule decides by how
much, from what the run did lately: a cooler remembers the last outcomes and the last finite
energies, a window of each.

* geometric: by the factor `alpha`;
* Lam–Delosme: by `alpha ^ e` with an exponent `e` that grows with the share of accepted moves
  and is one at the share aimed for;
* Huang: by `exp (-T * lambda / sigma)`, where `sigma` is the spread of the recent energies.
-/

inductive CoolingSchedule where
  | geometric
  | lamDelosme
  | huang
deriving DecidableEq, Repr, Inhabited

namespace CoolingSchedule

def label : CoolingSchedule → String
  | .geometric => "Geometric"
  | .lamDelosme => "LamDelosme"
  | .huang => "Huang"

end CoolingSchedule

/-- Appends to a window of at most `capacity` entries; a full one loses its oldest entry. -/
def slide {β : Type} (capacity : Nat) (window : List β) (entry : β) : List β :=
  if window.length = capacity then window.tail ++ [entry] else window ++ [entry]

theorem length_slide_le {β : Type} {capacity : Nat} {window : List β} (hpos : 0 < capacity)
    (hfits : window.length ≤ capacity) (entry : β) :
    (slide capacity window entry).length ≤ capacity := by
  unfold slide
  split
  next hfull =>
    -- one entry leaves for the one that comes
    rw [List.length_append, List.length_tail, List.length_singleton, hfull]
    omega
  next hroom =>
    rw [List.length_append, List.length_singleton]
    omega

/-- A schedule and what it remembers of the run. -/
structure Cooler (α : Type) where
  schedule : CoolingSchedule
  alpha : α
  lambda : α
  /-- Whether each of the latest moves was accepted, the oldest first. -/
  outcomes : List Bool := []
  /-- How many of the remembered moves were accepted. -/
  accepted : Nat := 0
  /-- The latest finite energies, the oldest first. -/
  energies : List α := []

namespace Cooler

/-- How many outcomes and how many energies are remembered. -/
def window : Nat := 100

variable {α : Type} [Scalar α]

/-- The share of accepted moves that Lam–Delosme cooling steers towards. -/
def targetAcceptance : α := 0.44

def minExponent : α := 0.25

def maxExponent : α := 4.0

/-- Remembers the outcome of a move and the energy after it. Only finite energies are kept. -/
def observe (c : Cooler α) (accepted : Bool) (energy : α) : Cooler α :=
  let forgotten := if c.outcomes.length = window ∧ c.outcomes.head? = some true then 1 else 0
  { c with
    outcomes := slide window c.outcomes accepted
    accepted := c.accepted - forgotten + if accepted then 1 else 0
    energies := if Scalar.isFinite energy then slide window c.energies energy else c.energies }

/-- The share of accepted moves among the remembered ones. -/
def acceptanceRatio (c : Cooler α) : α := Scalar.fraction c.accepted c.outcomes.length

/-- The standard deviation of the remembered energies, where there are at least two. -/
def energySpread? (c : Cooler α) : Option α :=
  if c.energies.length < 2 then none
  else
    let n := Scalar.ofNat c.energies.length
    let mean := Scalar.sum c.energies / n
    let squares := c.energies.map fun e => (e - mean) * (e - mean)
    some (Scalar.sqrt (Scalar.sum squares / n))

/-- The temperature that follows. Without enough memory, or without any spread of energies, the
schedules cool geometrically. -/
def nextTemperature (c : Cooler α) (temperature : α) : α :=
  match c.schedule with
  | .geometric => temperature * c.alpha
  | .lamDelosme =>
    if c.outcomes.isEmpty then temperature * c.alpha
    else
      let e := Scalar.clamp (c.acceptanceRatio / targetAcceptance) minExponent maxExponent
      temperature * Scalar.pow c.alpha e
  | .huang =>
    match c.energySpread? with
    | some sigma =>
      if sigma > 0.0 then temperature * Scalar.exp (-temperature * c.lambda / sigma)
      else temperature * c.alpha
    | none => temperature * c.alpha

end Cooler

end ThermalSearch
