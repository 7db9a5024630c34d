import ThermalSearch.Proposal
import ThermalSearch.Sample.Landscape

namespace ThermalSearch.Walk

/-!
# Sample proposals

Proposals that are not among the stock ones: they move every coordinate, or none, or change the
number of coordinates, and show what the searches leave to the proposal.
-/

/-- Turns one coordinate over and shrinks it a little. -/
def dampedFlip : Proposal Float := fun state g =>
  if state.isEmpty then .error .outOfBounds
  else changeOne (fun _ x g => .ok (-x * 0.9, g)) state g

/-- Proposes the state itself. -/
def stay : Proposal Float := fun state g => .ok (state, g)

/-- Moves every coordinate by up to one half either way, from the first to the last. -/
def jitter : Proposal Float
  | [], g => .ok ([], g)
  | x :: rest, g => do
    let (offset, g) ← g.uniform (-0.5) 0.5
    let (moved, g) ← jitter rest g
    return ((x + offset) :: moved, g)

/-- Drops the last coordinate while more than one is left. -/
def shorten : Proposal Float := fun state g =>
  .ok (if state.length > 1 then state.dropLast else state, g)

/-- A bowl on which every proposal leads towards the origin, or nowhere. -/
def slide : Problem Float := { energy := Landscape.sphere, propose := shorten }

/-- The states of a walk of `steps` proposals, in order, and the generator after it. -/
def states (propose : Proposal Float) (state : State Float) (g : Generator) :
    Nat → Except Fault (List (State Float) × Generator)
  | 0 => .ok ([], g)
  | steps + 1 => do
    let (next, g) ← propose state g
    let (later, g) ← states propose next g steps
    return (next :: later, g)

end ThermalSearch.Walk
