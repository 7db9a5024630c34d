import Mathlib.Algebra.BigOperators.Ring.List
import ThermalSearch.Proofs.Annealing.BestTracking
import ThermalSearch.Proofs.Scalar.UnitChange
import ThermalSearch.Proofs.Settings

/-!
# Annealing in other units

A chain whose energies and temperatures are measured in other units makes the same moves: each step
commutes with measuring anew (`Chain.step_remeasure`), and so does a run (`run_remeasure`). What has
to be seen to are the temperatures that follow: Huang cooling divides by the spread of the recent
energies, which is measured as a temperature is (`Cooler.energySpread?_remeasure`).
-/

namespace ThermalSearch

/-! ## Cooling -/

/-- A window of measured entries slides as the window of the entries does. -/
theorem slide_map {β γ : Type} (f : β → γ) (capacity : Nat) (window : List β) (entry : β) :
    slide capacity (window.map f) (f entry) = (slide capacity window entry).map f := by
  unfold slide
  rw [List.length_map]
  split
  · rw [List.map_append, List.map_tail, List.map_singleton]
  · rw [List.map_append, List.map_singleton]

/-- The cooler of a run whose energies are measured anew. -/
def Cooler.remeasure {α : Type} (onEnergy : α → α) (c : Cooler α) : Cooler α :=
  { c with energies := c.energies.map onEnergy }

variable {K : Type} [Field K] [LinearOrder K] [FloorSemiring K] {f : Uninterpreted K}
  (u : UnitChange f)

namespace Cooler

theorem observe_remeasure (c : Cooler (Exact f)) (accepted : Bool) (energy : Exact f) :
    (c.remeasure u.energy).observe accepted (u.energy energy) =
      (c.observe accepted energy).remeasure u.energy := by
  simp only [observe, remeasure, Exact.isFinite_eq_true, if_true, slide_map]
  rfl

/-- The mean of energies is an energy. -/
theorem mean_remeasure {energies : List (Exact f)} (h : energies ≠ []) :
    Scalar.sum (energies.map u.energy) / Scalar.ofNat energies.length =
      u.energy (Scalar.sum energies / Scalar.ofNat energies.length) := by
  have hcount : (energies.length : K) ≠ 0 := by
    rw [Nat.cast_ne_zero, Ne, List.length_eq_zero_iff]
    exact h
  have hsum : ((energies.map u.energy).map Exact.value).sum =
      u.scale * (energies.map Exact.value).sum + energies.length * u.offset := by
    clear hcount h
    induction energies with
    | nil => simp
    | cons e energies ih =>
      simp only [List.map_cons, List.sum_cons, ih, UnitChange.value_energy, List.length_cons,
        Nat.cast_succ]
      ring
  ext
  simp only [Exact.value_div, Exact.value_sum, Exact.value_ofNat, UnitChange.value_energy, hsum]
  field_simp

/-- Squares of deviations are measured in squares of the unit. -/
theorem sum_squares_remeasure (energies : List (Exact f)) (mean : Exact f) :
    (Scalar.sum ((energies.map u.energy).map
        fun e => (e - u.energy mean) * (e - u.energy mean))).value =
      u.scale * u.scale *
        (Scalar.sum (energies.map fun e => (e - mean) * (e - mean))).value := by
  simp only [Exact.value_sum, List.map_map, ← List.sum_map_mul_left]
  congr 1
  refine List.map_congr_left fun e _ => ?_
  simp only [Function.comp_apply, UnitChange.energy_sub_energy, Exact.value_mul,
    UnitChange.value_temperature]
  ring

/-- The spread of the energies is measured as a temperature is. -/
theorem energySpread?_remeasure (c : Cooler (Exact f)) :
    (c.remeasure u.energy).energySpread? = c.energySpread?.map u.temperature := by
  unfold energySpread?
  simp only [remeasure, List.length_map]
  split
  · rfl
  next hmany =>
    have hsome : c.energies ≠ [] := by
      intro hnone
      rw [hnone] at hmany
      exact hmany Nat.zero_lt_two
    rw [mean_remeasure u hsome, Option.map_some]
    congr 1
    ext
    show f.sqrt (Exact.value _ / _) = u.scale * f.sqrt (Exact.value _ / _)
    rw [sum_squares_remeasure, mul_div_assoc, u.sqrt_scale]

variable [IsStrictOrderedRing K]

/-- The temperature that follows is the one that follows in the other units. -/
theorem nextTemperature_remeasure (c : Cooler (Exact f)) (temperature : Exact f) :
    (c.remeasure u.energy).nextTemperature (u.temperature temperature) =
      u.temperature (c.nextTemperature temperature) := by
  have hratio : (c.remeasure u.energy).acceptanceRatio = c.acceptanceRatio := rfl
  unfold nextTemperature
  rw [energySpread?_remeasure, hratio]
  simp only [remeasure]
  cases c.schedule with
  | geometric => exact u.temperature_mul _ _
  | lamDelosme =>
    dsimp only
    rw [apply_ite u.temperature, u.temperature_mul, u.temperature_mul]
    rfl
  | huang =>
    cases c.energySpread? with
    | none => exact u.temperature_mul _ _
    | some sigma =>
      -- the exponent is a ratio of temperatures, times the pure number `lambda`
      simp only [Option.map_some, gt_iff_lt, u.zero_lt_temperature_iff, u.temperature_neg,
        u.temperature_mul, u.temperature_div_temperature]
      rw [apply_ite u.temperature]

end Cooler

namespace Annealing

/-! ## Measuring anew -/

section

variable {α : Type}

/-- The settings of a run whose temperatures are measured anew. -/
def Config.remeasure (onTemperature : α → α) (c : Config α) : Config α :=
  { c with
    initialTemperature := onTemperature c.initialTemperature
    finalTemperature := onTemperature c.finalTemperature }

/-- A chain whose energies and temperatures are measured anew. Its states, its generator and its
counts stay. -/
def Chain.remeasure (onEnergy onTemperature : α → α) (c : Chain α) : Chain α :=
  { c with
    energy := onEnergy c.energy
    bestEnergy := onEnergy c.bestEnergy
    temperature := onTemperature c.temperature
    cooler := c.cooler.remeasure onEnergy
    energyHistory := c.energyHistory.map onEnergy
    temperatureHistory := c.temperatureHistory.map onTemperature
    journal := c.journal.map (Event.remeasure onEnergy onTemperature) }

/-- A result whose energies and temperatures are measured anew. -/
def Result.remeasure (onEnergy onTemperature : α → α) (r : Result α) : Result α :=
  { r with
    bestEnergy := onEnergy r.bestEnergy
    energyHistory := r.energyHistory.map onEnergy
    temperatureHistory := r.temperatureHistory.map onTemperature
    finalTemperature := onTemperature r.finalTemperature }

variable (onEnergy onTemperature : α → α)

theorem Chain.start_remeasure (config : Config α) (initial : State α) (energy : α) :
    start (config.remeasure onTemperature) initial (onEnergy energy) =
      (start config initial energy).remeasure onEnergy onTemperature := by
  simp only [start, remeasure, Config.remeasure, Cooler.remeasure, Event.remeasure,
    List.map_toArray, List.map_cons, List.map_nil]

theorem Chain.settle_remeasure (c : Chain α) (accepted : Bool) (candidate : State α)
    (energy : α) :
    (c.remeasure onEnergy onTemperature).settle accepted candidate (onEnergy energy) =
      (c.settle accepted candidate energy).remeasure onEnergy onTemperature := by
  cases accepted with
  | false => rfl
  | true => rfl

theorem Chain.report_remeasure [Scalar α] (c : Chain α) (reason : StopReason) :
    (c.remeasure onEnergy onTemperature).report reason =
      (c.report reason).remeasure (Result.remeasure onEnergy onTemperature)
        (Event.remeasure onEnergy onTemperature) := by
  simp only [report, Report.remeasure, remeasure, Array.toList_map, List.map_append,
    List.map_singleton, Event.remeasure]
  rfl

end

/-! ## Steps -/

variable (problem : Problem (Exact f)) (config : Config (Exact f))

theorem Chain.record_remeasure (c : Chain (Exact f)) (accepted : Bool) :
    (c.remeasure u.energy u.temperature).record accepted =
      (c.record accepted).remeasure u.energy u.temperature := by
  simp only [record, remeasure, Array.map_push, Cooler.observe_remeasure]

variable [IsStrictOrderedRing K]

/-- Whether settings are accepted does not depend on the unit. -/
theorem Config.validate_remeasure :
    (config.remeasure u.temperature).validate = .ok () ↔ config.validate = .ok () := by
  simp only [validate_eq_ok_iff, remeasure, Exact.isFinite_eq_true, u.temperature_le_zero_iff,
    u.temperature_le_temperature_iff]

namespace Chain

theorem trackBest_remeasure (c : Chain (Exact f)) :
    (c.remeasure u.energy u.temperature).trackBest =
      c.trackBest.remeasure u.energy u.temperature := by
  have hbetter : improves (c.remeasure u.energy u.temperature).energy
      (c.remeasure u.energy u.temperature).bestEnergy = improves c.energy c.bestEnergy :=
    u.improves_energy c.energy c.bestEnergy
  unfold trackBest
  rw [hbetter]
  split
  · rfl
  · rfl

theorem judged_remeasure (c : Chain (Exact f)) (accepted : Bool) (candidate : State (Exact f))
    (energy : Exact f) (g : Generator) :
    (c.remeasure u.energy u.temperature).judged accepted candidate (u.energy energy) g =
      (c.judged accepted candidate energy g).remeasure u.energy u.temperature := by
  unfold judged
  rw [← record_remeasure, ← trackBest_remeasure, ← settle_remeasure]
  rfl

theorem cool_remeasure (c : Chain (Exact f)) :
    (c.remeasure u.energy u.temperature).cool (config.remeasure u.temperature) =
      (c.cool config).remeasure u.energy u.temperature := by
  have hreheat : (config.remeasure u.temperature).reheatTemperature =
      u.temperature config.reheatTemperature := u.temperature_mul _ _
  unfold cool
  rw [hreheat]
  split
  next hreheats =>
    have hreheats' : 0 < config.reheatInterval ∧ c.iterations % config.reheatInterval = 0 :=
      hreheats
    rw [if_pos hreheats']
    simp only [remeasure, Array.map_push]
    rfl
  next hcools =>
    have hcools' : ¬ (0 < config.reheatInterval ∧ c.iterations % config.reheatInterval = 0) :=
      hcools
    rw [if_neg hcools']
    simp only [remeasure, Cooler.nextTemperature_remeasure]

/-- A step commutes with measuring anew. -/
theorem step_remeasure (c : Chain (Exact f)) :
    (c.remeasure u.energy u.temperature).step (problem.remeasure u.energy)
        (config.remeasure u.temperature) =
      (c.step problem config).map (remeasure u.energy u.temperature) := by
  have htrial : (problem.remeasure u.energy).trial (c.remeasure u.energy u.temperature).state
      (c.remeasure u.energy u.temperature).energy (c.remeasure u.energy u.temperature).temperature
      (c.remeasure u.energy u.temperature).generator =
        (problem.trial c.state c.energy c.temperature c.generator).map
          (Trial.remeasure u.energy) := u.trial_remeasure problem _ _ _ _
  rw [step_eq_map_trial, step_eq_map_trial, htrial]
  cases problem.trial c.state c.energy c.temperature c.generator with
  | error fault => rfl
  | ok t =>
    have hjudged := judged_remeasure u c t.accepted t.candidate t.energy t.generator
    have hcooled := cool_remeasure u config (c.judged t.accepted t.candidate t.energy t.generator)
    rw [← hjudged] at hcooled
    exact congrArg Except.ok hcooled

/-! ## Runs -/

theorem exit?_remeasure (watch : Watch) (c : Chain (Exact f)) :
    exit? (config.remeasure u.temperature) watch (c.remeasure u.energy u.temperature) =
      exit? config watch c := by
  have hcold : (c.remeasure u.energy u.temperature).temperature <
      (config.remeasure u.temperature).finalTemperature ↔
        c.temperature < config.finalTemperature := u.temperature_lt_temperature_iff
  simp only [exit?, hcold]
  rfl

theorem advance_remeasure (watch : Watch) (budget : Nat) (c : Chain (Exact f)) :
    (c.remeasure u.energy u.temperature).advance (problem.remeasure u.energy)
        (config.remeasure u.temperature) watch budget =
      (c.advance problem config watch budget).map
        (Prod.map id (remeasure u.energy u.temperature)) := by
  rw [advance_eq_runUntil, advance_eq_runUntil]
  exact runUntil_map (exit?_remeasure u config watch) (step_remeasure u problem config) budget c

end Chain

/-- After as many steps the chain in other units is where the chain is. -/
theorem after_start_remeasure (initial : State (Exact f)) (energy : Exact f) (n : Nat) :
    after (Chain.step (problem.remeasure u.energy) (config.remeasure u.temperature)) n
        (Chain.start (config.remeasure u.temperature) initial (u.energy energy)) =
      (after (Chain.step problem config) n (Chain.start config initial energy)).map
        (Chain.remeasure u.energy u.temperature) := by
  rw [Chain.start_remeasure]
  exact after_map (Chain.step_remeasure u problem config) n _

/-- A run in other units is the run, its report measured anew. -/
theorem run_remeasure (watch : Watch) {initial : State (Exact f)}
    (hvalid : config.validate = .ok ()) (hstate : initial ≠ []) :
    run (problem.remeasure u.energy) (config.remeasure u.temperature) watch initial =
      (run problem config watch initial).map
        (Report.remeasure (Result.remeasure u.energy u.temperature)
          (Event.remeasure u.energy u.temperature)) := by
  rw [run_of_admitted watch ((Config.validate_remeasure u config).mpr hvalid) hstate,
    run_of_admitted watch hvalid hstate]
  have henergy : (problem.remeasure u.energy).energy initial =
      (problem.energy initial).map u.energy := rfl
  rw [henergy]
  cases problem.energy initial with
  | error fault => rfl
  | ok energy =>
    have hadvance := Chain.advance_remeasure u problem config watch config.maxIterations
      (Chain.start config initial energy)
    rw [← Chain.start_remeasure] at hadvance
    have hbudget : (config.remeasure u.temperature).maxIterations = config.maxIterations := rfl
    dsimp only [bind, Except.bind, Except.map]
    rw [hbudget, hadvance]
    cases (Chain.start config initial energy).advance problem config watch
      config.maxIterations with
    | error fault => rfl
    | ok out => exact congrArg Except.ok (Chain.report_remeasure _ _ out.2 out.1)

end Annealing

end ThermalSearch
