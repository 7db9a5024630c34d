import ThermalSearch.Random.Generator

namespace ThermalSearch

/-!
# Acceptance rules

A rule looks at energies and temperatures and prescribes what happens to a proposal: it is
accepted, refused, or accepted with a stated chance. Only a chance costs a random number, so the
draws a run makes can be read off the prescriptions.

A state whose energy is not finite counts as infinitely bad: it is never entered by a Metropolis
move and left at the first finite candidate.
-/

/-- What a rule prescribes for a proposal. -/
inductive Verdict (α : Type) where
  | accept
  | refuse
  /-- Accept when a number drawn from 0 to 1 lies below `p`. -/
  | chance (p : α)
deriving Repr

namespace Verdict

variable {α : Type} [Scalar α]

/-- Carries a prescription out. -/
def decide (v : Verdict α) (g : Generator) : Bool × Generator :=
  match v with
  | .accept => (true, g)
  | .refuse => (false, g)
  | .chance p =>
    let (u, g) : α × Generator := g.unit
    (Decidable.decide (u < p), g)

end Verdict

variable {α : Type} [Scalar α]

/-- The Metropolis rule for one chain: what does not raise the energy is accepted, a rise by
`delta` with the chance `exp (-delta / temperature)`. At temperature zero and below no rise is
accepted, and an even move counts as a rise. -/
def metropolis (current candidate temperature : α) : Verdict α :=
  if !Scalar.isFinite candidate then .refuse
  else if !Scalar.isFinite current then .accept
  else
    let delta := candidate - current
    if delta < 0.0 then .accept
    else if temperature ≤ 0.0 then .refuse
    else .chance (Scalar.exp (-delta / temperature))

/-- The exchange rule for two chains, the colder one first. The joint weight of the two states
changes by the factor `exp delta`; the exchange is refused outright when that is undefined, as
it is for two infinite energies. -/
def exchange (cold hot coldEnergy hotEnergy : α) : Verdict α :=
  let delta := (1.0 / cold - 1.0 / hot) * (coldEnergy - hotEnergy)
  if Scalar.isNaN delta then .refuse
  else if delta > 0.0 then .accept
  else .chance (Scalar.exp delta)

/-- Whether a candidate replaces the best energy so far. A finite energy beats one that is not
finite, and nothing else is replaced by an equal. -/
def improves (candidate best : α) : Bool :=
  Scalar.isFinite candidate && (!Scalar.isFinite best || decide (candidate < best))

end ThermalSearch
