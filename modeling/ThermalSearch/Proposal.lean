import ThermalSearch.Random.Generator

namespace ThermalSearch

/-!
# Energies and proposals

What a search needs of a problem: the energy of a state, and a way to propose a state near the
present one. A state is a list of numbers; models over spins and bits code their states so.

The stock proposals change one coordinate, chosen at random, and leave the others alone.
-/

abbrev State (α : Type) := List α

/-- The energy of a state. It may be infinite or undefined, which counts as infinitely bad. -/
abbrev Energy (α : Type) := State α → Except Fault α

/-- Proposes a state near the given one, drawing from the generator. -/
abbrev Proposal (α : Type) := State α → Generator → Except Fault (State α × Generator)

/-- A landscape to search and a way to move on it. -/
structure Problem (α : Type) where
  energy : Energy α
  propose : Proposal α

variable {α : Type}

/-- Replaces the coordinate at a random position by what `change` makes of its position and
value. A state without coordinates is kept, and nothing is drawn. -/
def changeOne (change : Nat → α → Generator → Except Fault (α × Generator)) : Proposal α :=
  fun state g =>
    if state.isEmpty then .ok (state, g)
    else
      let (i, g) := g.index state.length
      match state[i]? with
      | none => .error .outOfBounds
      | some x => do
        let (y, g) ← change i x g
        return (state.set i y, g)

/-- A change of one coordinate keeps the number of coordinates. -/
theorem length_changeOne {change : Nat → α → Generator → Except Fault (α × Generator)}
    {state next : State α} {g g' : Generator}
    (h : changeOne change state g = .ok (next, g')) : next.length = state.length := by
  unfold changeOne at h
  split at h
  · cases h
    rfl
  · dsimp only at h
    split at h
    · cases h
    · -- only the change itself can fail now
      obtain ⟨moved, _, hset⟩ := bind_eq_ok_iff.mp h
      cases hset
      exact List.length_set

variable [Scalar α]

/-! ## Steps of bounded size -/

/-- Moves a coordinate by a uniform offset of at most `size` either way. -/
structure UniformStep (α : Type) where
  size : α

namespace UniformStep

/-- A step has a positive finite size. -/
def ofSize (size : α) : Except (Rejection α) (UniformStep α) := do
  requireFinite .step size
  refuseIf (size ≤ 0.0) .stepNotPositive
  return ⟨size⟩

/-- Moves one number. -/
def shift (s : UniformStep α) (x : α) (g : Generator) : Except Fault (α × Generator) := do
  let (offset, g) ← g.uniform (-s.size) s.size
  return (x + offset, g)

def propose (s : UniformStep α) : Proposal α := changeOne fun _ x g => s.shift x g

end UniformStep

/-- A uniform step whose result is brought back between the bounds of its coordinate.
Coordinates past the last bound are free. -/
structure BoundedStep (α : Type) where
  step : UniformStep α
  lower : List α
  upper : List α

namespace BoundedStep

/-- The first coordinate, counted from `i`, whose bounds enclose nothing. -/
def requireBounds (i : Nat) : List α → List α → Except (Rejection α) Unit
  | lo :: lower, hi :: upper => do
    refuseIf (Scalar.isNaN lo || Scalar.isNaN hi || decide (hi < lo)) (.invalidBounds i lo hi)
    requireBounds (i + 1) lower upper
  | _, _ => .ok ()

/-- A bounded step has as many lower as upper bounds, all defined and in order. -/
def ofBounds (size : α) (lower upper : List α) : Except (Rejection α) (BoundedStep α) := do
  let step ← UniformStep.ofSize size
  requireLength lower.length upper.length
  requireBounds 0 lower upper
  return { step, lower, upper }

/-- Brings the number at coordinate `i` between its bounds. -/
def limit (s : BoundedStep α) (i : Nat) (x : α) : α :=
  match s.lower[i]?, s.upper[i]? with
  | some lo, some hi => Scalar.clamp x lo hi
  | _, _ => x

/-- Brings every coordinate between its bounds. -/
def project (s : BoundedStep α) (state : State α) : State α := state.mapIdx s.limit

def propose (s : BoundedStep α) : Proposal α := changeOne fun i x g => do
  let (moved, g) ← s.step.shift x g
  return (s.limit i moved, g)

end BoundedStep

/-! ## Moves between discrete values -/

/-- Turns one spin over. -/
def flipSpin : Proposal α := changeOne fun _ s g => .ok (-s, g)

/-- Gives one coordinate another of the state numbers below `states`, each equally likely: the
number drawn is one below `states - 1`, and those from the present one upwards are moved up by
one. With fewer than two states there is nothing to change to, and nothing is drawn. -/
def reassign (states : Nat) : Proposal α := fun state g =>
  if states < 2 then .ok (state, g)
  else
    changeOne (fun _ x g =>
      let (drawn, g) := g.index (states - 1)
      let target := if Scalar.nearest x ≤ drawn then drawn + 1 else drawn
      .ok (Scalar.ofNat (min target (states - 1)), g)) state g

end ThermalSearch
