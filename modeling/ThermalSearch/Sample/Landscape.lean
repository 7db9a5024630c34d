import ThermalSearch.Proposal

namespace ThermalSearch.Landscape

/-!
# Sample landscapes

Energies on which the searches are tried out: smooth and rugged bowls, energies without a
minimum, and energies that are undefined or infinite somewhere. They are sums over the
coordinates, from the left and from zero, or look at the first coordinates only.
-/

/-- The sum of `term` over the coordinates. -/
def total (term : Float → Float) : Energy Float := fun state =>
  .ok (state.foldl (fun acc x => acc + term x) 0.0)

/-- An energy of the first coordinate alone. -/
def ofFirst (f : Float → Float) : Energy Float := fun state =>
  match state with
  | x :: _ => .ok (f x)
  | [] => .error .outOfBounds

def sphere : Energy Float := total fun x => x * x

def linear : Energy Float := total fun x => x

def taxicab : Energy Float := total Float.abs

/-- Flat steps of width one. -/
def staircase : Energy Float := total Float.floor

/-- Two valleys per coordinate, the left one a little deeper. -/
def doubleWell : Energy Float :=
  total fun x => (x * x - 4.0) * (x * x - 4.0) + 0.5 * x

/-- The ratio of circumference to diameter, as the nearest binary64 number. -/
def pi : Float := Float.ofBits 0x400921fb54442d18

/-- A bowl covered with ripples: many local minima around the one at the origin. -/
def rastrigin : Energy Float := fun state => do
  let ripples ← total (fun x => x * x - 10.0 * Float.cos (2.0 * pi * x)) state
  return 10.0 * Scalar.ofNat state.length + ripples

/-- A bowl in the plane with its minimum at `(3, -3)`. -/
def shifted : Energy Float := fun state =>
  match state with
  | x :: y :: _ => .ok ((x - 3.0) * (x - 3.0) + (y + 3.0) * (y + 3.0))
  | _ => .error .outOfBounds

/-- A bowl that is undefined beyond a wall at one. -/
def walled : Energy Float := ofFirst fun x => if x > 1.0 then 0.0 / 0.0 else x * x

/-- A bowl whose minimum is taken out. -/
def hole : Energy Float := ofFirst fun x => if x == 0.0 then 1.0 / 0.0 else x.abs

/-- A slope that falls off to minus infinity. -/
def cliff : Energy Float := ofFirst fun x => if x < -1.0 then -1.0 / 0.0 else x

/-- The same energy everywhere. -/
def flat (level : Float) : Energy Float := fun _ => .ok level

end ThermalSearch.Landscape
