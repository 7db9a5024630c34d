import Mathlib.Tactic.FieldSimp
import Mathlib.Tactic.Ring
import ThermalSearch.Acceptance
import ThermalSearch.Journal
import ThermalSearch.Proofs.Scalar.Exact
import ThermalSearch.Proofs.Trial

/-!
# Other units

Energies and temperatures are measured in the same unit, and energies from some zero. A change of
units multiplies both by a positive factor and counts energies from another zero. Temperatures are
never compared with energies, only with differences of energies, which change as temperatures do
(`energy_sub_energy`); so every rule of the searches says the same in the new units as in the old.

Exact arithmetic is needed for that, and of the root that it takes the factor out of a square.
-/

namespace ThermalSearch

/-! ## Measuring anew -/

section

variable {α : Type}

/-- The same landscape and the same moves, with energies as `onEnergy` gives them. -/
def Problem.remeasure (onEnergy : α → α) (problem : Problem α) : Problem α where
  energy state := (problem.energy state).map onEnergy
  propose := problem.propose

def Trial.remeasure (onEnergy : α → α) (t : Trial α) : Trial α :=
  { t with energy := onEnergy t.energy }

/-- An event with its energies and temperatures measured anew. -/
def Event.remeasure (onEnergy onTemperature : α → α) : Event α → Event α
  | .annealingStarted schedule initial final maxIterations energy =>
    .annealingStarted schedule (onTemperature initial) (onTemperature final) maxIterations
      (onEnergy energy)
  | .reheated iterations temperature best =>
    .reheated iterations (onTemperature temperature) (onEnergy best)
  | .annealingFinished reason iterations accepts reheats best temperature =>
    .annealingFinished reason iterations accepts reheats (onEnergy best)
      (onTemperature temperature)
  | .replicasClamped requested used => .replicasClamped requested used
  | .temperingStarted replicas sweeps swaps parallel =>
    .temperingStarted replicas sweeps swaps parallel
  | .ladderAdapted rounds moved => .ladderAdapted rounds moved
  | .temperingFinished rounds best cancelled =>
    .temperingFinished rounds (onEnergy best) cancelled
  | .quboAnnealed bits energy => .quboAnnealed bits (onEnergy energy)
  | .quboTempered bits energy => .quboTempered bits (onEnergy energy)
  | .pottsAnnealed spins states best => .pottsAnnealed spins states (onEnergy best)

/-- A report whose result and events are measured anew. -/
def Report.remeasure {ρ : Type} (onResult : ρ → ρ) (onEvent : Event α → Event α)
    (report : Report α ρ) : Report α ρ :=
  { report with
    result := onResult report.result
    journal := report.journal.map onEvent }

end

/-! ## Changes of units -/

/-- Another unit, as a multiple `scale` of which the old one is measured, and another zero. -/
structure UnitChange {K : Type} [Field K] [LinearOrder K] (f : Uninterpreted K) where
  scale : K
  offset : K
  scale_pos : 0 < scale
  /-- The root of what is measured in squares of the unit is measured in the unit. -/
  sqrt_scale : ∀ x, f.sqrt (scale * scale * x) = scale * f.sqrt x

namespace UnitChange

variable {K : Type} [Field K] [LinearOrder K] {f : Uninterpreted K}

/-- The same unit, and a zero that lies lower by `offset`. -/
def shift [IsStrictOrderedRing K] (offset : K) : UnitChange f where
  scale := 1
  offset := offset
  scale_pos := zero_lt_one
  sqrt_scale x := by rw [one_mul, one_mul, one_mul]

variable (u : UnitChange f)

def energy (e : Exact f) : Exact f := ⟨u.scale * e.value + u.offset⟩

def temperature (t : Exact f) : Exact f := ⟨u.scale * t.value⟩

@[simp] theorem value_energy (e : Exact f) :
    (u.energy e).value = u.scale * e.value + u.offset := rfl

@[simp] theorem value_temperature (t : Exact f) :
    (u.temperature t).value = u.scale * t.value := rfl

theorem energy_shift [IsStrictOrderedRing K] (offset : K) :
    (shift offset : UnitChange f).energy = fun e => ⟨e.value + offset⟩ := by
  funext e
  ext
  show 1 * e.value + offset = e.value + offset
  rw [one_mul]

theorem temperature_shift [IsStrictOrderedRing K] (offset : K) :
    (shift offset : UnitChange f).temperature = id := by
  funext t
  ext
  exact one_mul t.value

/-! ### Arithmetic -/

variable [FloorSemiring K]

/-- A difference of energies is measured as a temperature is: the zero does not matter. -/
theorem energy_sub_energy (a b : Exact f) : u.energy a - u.energy b = u.temperature (a - b) := by
  ext
  simp only [Exact.value_sub, value_energy, value_temperature]
  ring

theorem temperature_zero : u.temperature 0.0 = 0.0 := by
  ext
  rw [value_temperature, Exact.value_zero, mul_zero]

theorem temperature_neg (t : Exact f) : -u.temperature t = u.temperature (-t) := by
  ext
  simp only [Exact.value_neg, value_temperature, mul_neg]

theorem temperature_add_temperature (s t : Exact f) :
    u.temperature s + u.temperature t = u.temperature (s + t) := by
  ext
  simp only [Exact.value_add, value_temperature]
  ring

theorem temperature_sub_temperature (s t : Exact f) :
    u.temperature s - u.temperature t = u.temperature (s - t) := by
  ext
  simp only [Exact.value_sub, value_temperature]
  ring

/-- What multiplies a temperature is a pure number. -/
theorem temperature_mul (t x : Exact f) : u.temperature t * x = u.temperature (t * x) := by
  ext
  simp only [Exact.value_mul, value_temperature, mul_assoc]

theorem mul_temperature (x t : Exact f) : x * u.temperature t = u.temperature (x * t) := by
  ext
  simp only [Exact.value_mul, value_temperature]
  ring

/-- A ratio of temperatures is a pure number. -/
theorem temperature_div_temperature (s t : Exact f) :
    u.temperature s / u.temperature t = s / t := by
  ext
  simp only [Exact.value_div, value_temperature]
  exact mul_div_mul_left _ _ u.scale_pos.ne'

theorem sqrt_temperature_mul_temperature (s t : Exact f) :
    Scalar.sqrt (u.temperature s * u.temperature t) = u.temperature (Scalar.sqrt (s * t)) := by
  ext
  show f.sqrt (u.scale * s.value * (u.scale * t.value)) = u.scale * f.sqrt (s.value * t.value)
  rw [mul_mul_mul_comm, u.sqrt_scale]

theorem temperature_beq_temperature (s t : Exact f) :
    (u.temperature s == u.temperature t) = (s == t) :=
  decide_eq_decide.mpr (mul_right_inj' u.scale_pos.ne')

/-! ### Order -/

variable [IsStrictOrderedRing K]

theorem energy_lt_energy_iff {a b : Exact f} : u.energy a < u.energy b ↔ a < b := by
  simp only [Exact.lt_iff, value_energy]
  rw [add_lt_add_iff_right, mul_lt_mul_iff_right₀ u.scale_pos]

theorem temperature_lt_temperature_iff {s t : Exact f} :
    u.temperature s < u.temperature t ↔ s < t := by
  simp only [Exact.lt_iff, value_temperature]
  exact mul_lt_mul_iff_right₀ u.scale_pos

theorem temperature_le_temperature_iff {s t : Exact f} :
    u.temperature s ≤ u.temperature t ↔ s ≤ t := by
  simp only [Exact.le_iff, value_temperature]
  exact mul_le_mul_iff_right₀ u.scale_pos

/-- The sign of a temperature does not depend on the unit. -/
theorem temperature_le_zero_iff {t : Exact f} : u.temperature t ≤ 0.0 ↔ t ≤ 0.0 := by
  rw [← u.temperature_zero, temperature_le_temperature_iff, u.temperature_zero]

theorem temperature_lt_zero_iff {t : Exact f} : u.temperature t < 0.0 ↔ t < 0.0 := by
  rw [← u.temperature_zero, temperature_lt_temperature_iff, u.temperature_zero]

theorem zero_lt_temperature_iff {t : Exact f} : 0.0 < u.temperature t ↔ 0.0 < t := by
  rw [← u.temperature_zero, temperature_lt_temperature_iff, u.temperature_zero]

/-! ### Acceptance rules -/

theorem improves_energy (candidate best : Exact f) :
    improves (u.energy candidate) (u.energy best) = improves candidate best := by
  simp only [improves, Exact.isFinite_eq_true, energy_lt_energy_iff]

theorem metropolis_energy (current candidate temperature : Exact f) :
    metropolis (u.energy current) (u.energy candidate) (u.temperature temperature) =
      metropolis current candidate temperature := by
  simp only [metropolis, Exact.isFinite_eq_true, energy_sub_energy, temperature_lt_zero_iff,
    temperature_le_zero_iff, temperature_neg, temperature_div_temperature]

/-- A trial has the same outcome, carried out with the same generator. -/
theorem trial_remeasure (problem : Problem (Exact f)) (state : State (Exact f))
    (energy temperature : Exact f) (g : Generator) :
    (problem.remeasure u.energy).trial state (u.energy energy) (u.temperature temperature) g =
      (problem.trial state energy temperature g).map (Trial.remeasure u.energy) := by
  have hpropose : (problem.remeasure u.energy).propose state g = problem.propose state g := rfl
  unfold Problem.trial
  rw [hpropose]
  cases problem.propose state g with
  | error fault => rfl
  | ok proposed =>
    have henergy : (problem.remeasure u.energy).energy proposed.1 =
        (problem.energy proposed.1).map u.energy := rfl
    dsimp only [bind, Except.bind]
    rw [henergy]
    cases problem.energy proposed.1 with
    | error fault => rfl
    | ok next =>
      dsimp only [Except.map]
      rw [metropolis_energy]
      rfl

omit [IsStrictOrderedRing K] in
/-- Inverse temperatures meet differences of energies only. -/
theorem exchange_energy (cold hot coldEnergy hotEnergy : Exact f) :
    exchange (u.temperature cold) (u.temperature hot) (u.energy coldEnergy)
        (u.energy hotEnergy) = exchange cold hot coldEnergy hotEnergy := by
  have hweight : (1.0 / u.temperature cold - 1.0 / u.temperature hot) *
        (u.energy coldEnergy - u.energy hotEnergy) =
      (1.0 / cold - 1.0 / hot) * (coldEnergy - hotEnergy) := by
    have hscale : u.scale ≠ 0 := u.scale_pos.ne'
    rw [energy_sub_energy]
    ext
    simp only [Exact.value_mul, Exact.value_sub, Exact.value_div, value_temperature,
      Exact.value_one, one_div, mul_inv]
    field_simp
  simp only [exchange, hweight]

end UnitChange

end ThermalSearch
