import ThermalSearch.Proofs.Annealing.UnitChange
import ThermalSearch.Proofs.Moves
import ThermalSearch.Proofs.Scalar.Reals
import ThermalSearch.Proofs.Tempering.UnitChange

/-!
# Searches do not depend on units

Neither engine is affected by where energies are counted from: a constant that is added to all
energies is added to all energies of a result, and changes nothing else (`run_add_constant`). Nor
is it affected by the unit of energies and temperatures (`run_scaled`). Both follow from what the
engines do under a change of units, in which the two are taken together.
-/

namespace ThermalSearch

/-- The sum of the spins is their energy, and proposals turn one of them over. -/
def paramagnet {α : Type} [Scalar α] : Problem α where
  energy spins := .ok (Scalar.sum spins)
  propose := flipSpin

theorem paramagnet_total {α : Type} [Scalar α] : (paramagnet : Problem α).Total where
  energy _ := ⟨_, rfl⟩
  propose := exists_flipSpin

/-! ## Another zero -/

section

variable {K : Type} [Field K] [LinearOrder K] [IsStrictOrderedRing K] [FloorSemiring K]

/-- A constant that is added to all energies changes neither the states a search visits nor what it
decides: wherever the other search has an energy, this one has the energy with the constant. -/
theorem run_add_constant (f : Uninterpreted K) (problem : Problem (Exact f))
    (constant : Exact f) (watch : Watch) (initial : State (Exact f)) (hstate : initial ≠ []) :
    let raise : Exact f → Exact f := (· + constant)
    let raised : Problem (Exact f) :=
      { problem with energy := fun state => (problem.energy state).map raise }
    (∀ config : Annealing.Config (Exact f), config.validate = .ok () →
      (problem.Total → ∃ report, Annealing.run problem config watch initial = .ok report) ∧
      Annealing.run raised config watch initial =
        (Annealing.run problem config watch initial).map (fun report =>
          { report with
            result := { report.result with
              bestEnergy := raise report.result.bestEnergy
              energyHistory := report.result.energyHistory.map raise }
            journal := report.journal.map (Event.remeasure raise id) }) ∧
      ∀ energy n, after (Annealing.Chain.step raised config) n
          (Annealing.Chain.start config initial (raise energy)) =
        (after (Annealing.Chain.step problem config) n
          (Annealing.Chain.start config initial energy)).map
            (Annealing.Chain.remeasure raise id)) ∧
    ∀ config : Tempering.Config (Exact f), config.validate = .ok () →
      (problem.Total → config.reserve = .ok () →
        ∃ report, Tempering.run problem config watch initial = .ok report) ∧
      Tempering.run raised config watch initial =
        (Tempering.run problem config watch initial).map (fun report =>
          { report with
            result := { report.result with
              bestEnergy := raise report.result.bestEnergy
              replicaEnergies := report.result.replicaEnergies.map raise
              energyTraces := report.result.energyTraces.map (Array.map raise) }
            journal := report.journal.map (Event.remeasure raise id) }) ∧
      (∀ energy n, after (Tempering.Ensemble.round raised config) n
          (Tempering.Ensemble.start config initial (raise energy)) =
        (after (Tempering.Ensemble.round problem config) n
          (Tempering.Ensemble.start config initial energy)).map
            (Tempering.Ensemble.remeasure raise id)) ∧
      ∀ temperature n r, after (Tempering.Replica.move raised temperature) n
          (r.remeasure raise) =
        (after (Tempering.Replica.move problem temperature) n r).map
          (Tempering.Replica.remeasure raise) := by
  intro raise raised
  let u : UnitChange f := UnitChange.shift constant.value
  have henergy : u.energy = raise := UnitChange.energy_shift constant.value
  have htemperature : u.temperature = id := UnitChange.temperature_shift constant.value
  constructor
  · intro config hvalid
    refine ⟨?_, ?_, ?_⟩
    · intro htotal
      exact Annealing.run_total htotal hvalid hstate
    · have hrun := Annealing.run_remeasure u problem config watch hvalid hstate
      rw [henergy, htemperature] at hrun
      refine hrun.trans (congrArg (Except.map · _) (funext fun report => ?_))
      simp only [Report.remeasure, Annealing.Result.remeasure, Array.map_id, id]
    · intro energy n
      have hsteps := Annealing.after_start_remeasure u problem config initial energy n
      rw [henergy, htemperature] at hsteps
      exact hsteps
  · intro config hvalid
    refine ⟨?_, ?_, ?_, ?_⟩
    · intro htotal hroom
      exact Tempering.run_total htotal hvalid hstate hroom
    · have hrun := Tempering.run_remeasure u problem config watch hvalid hstate
      rw [henergy, htemperature] at hrun
      refine hrun.trans (congrArg (Except.map · _) (funext fun report => ?_))
      simp only [Report.remeasure, Tempering.Result.remeasure, List.map_id]
    · intro energy n
      have hrounds := Tempering.after_start_remeasure u problem config initial energy n
      rw [henergy, htemperature] at hrounds
      exact hrounds
    · intro temperature n r
      have hmoves := after_map (Tempering.Replica.move_remeasure u problem temperature) n r
      rw [henergy, htemperature] at hmoves
      exact hmoves

end

/-- Five more for each state, and the same search. -/
theorem run_add_constant_paramagnet :
    let raise : Exact (default : Uninterpreted ℚ) → Exact default := (· + ⟨5⟩)
    let raised : Problem (Exact (default : Uninterpreted ℚ)) := paramagnet.remeasure raise
    (Annealing.Config.standard : Annealing.Config (Exact (default : Uninterpreted ℚ))).validate =
      .ok () ∧
    (∃ report, Annealing.run paramagnet .standard .never [⟨1⟩] = .ok report ∧
      ∃ report', Annealing.run raised .standard .never [⟨1⟩] = .ok report' ∧
        report'.result.bestState = report.result.bestState ∧
        report'.result.bestEnergy = report.result.bestEnergy + ⟨5⟩) ∧
    (Tempering.Config.standard : Tempering.Config (Exact (default : Uninterpreted ℚ))).validate =
      .ok () ∧
    ∃ report, Tempering.run paramagnet .standard .never [⟨1⟩] = .ok report ∧
      ∃ report', Tempering.run raised .standard .never [⟨1⟩] = .ok report' ∧
        report'.result.bestState = report.result.bestState ∧
        report'.result.bestEnergy = report.result.bestEnergy + ⟨5⟩ := by
  intro raise raised
  obtain ⟨hanneal, htemper⟩ := run_add_constant (default : Uninterpreted ℚ) paramagnet ⟨5⟩ .never
    [⟨1⟩] (List.cons_ne_nil _ _)
  have htotal : (paramagnet : Problem (Exact (default : Uninterpreted ℚ))).Total :=
    paramagnet_total
  obtain ⟨hanneals, hannealed', -⟩ := hanneal .standard Annealing.Config.validate_standard
  obtain ⟨htempers, htempered', -⟩ := htemper .standard Tempering.Config.validate_standard
  obtain ⟨annealed, hannealed⟩ := hanneals htotal
  obtain ⟨tempered, htempered⟩ := htempers htotal Tempering.Config.reserve_standard
  rw [hannealed] at hannealed'
  rw [htempered] at htempered'
  exact ⟨Annealing.Config.validate_standard,
    ⟨annealed, hannealed, _, hannealed', rfl, rfl⟩, Tempering.Config.validate_standard,
    tempered, htempered, _, htempered', rfl, rfl⟩

/-! ## Another unit -/

/-- Where all energies are multiplied by a positive number, and the temperatures of the settings
too, a search visits the same states and decides as before: all its energies and temperatures are
multiplied by that number. -/
theorem run_scaled (worst : ℝ) (problem : Problem (Exact (realFunctions worst))) (factor : ℝ)
    (hfactor : 0 < factor) (watch : Watch) (initial : State (Exact (realFunctions worst)))
    (hstate : initial ≠ []) :
    let scale : Exact (realFunctions worst) → Exact (realFunctions worst) := (⟨factor⟩ * ·)
    let scaled : Problem (Exact (realFunctions worst)) :=
      { problem with energy := fun state => (problem.energy state).map scale }
    (∀ config : Annealing.Config (Exact (realFunctions worst)), config.validate = .ok () →
      let scaledConfig : Annealing.Config (Exact (realFunctions worst)) :=
        { config with
          initialTemperature := scale config.initialTemperature
          finalTemperature := scale config.finalTemperature }
      scaledConfig.validate = .ok () ∧
      (problem.Total → ∃ report, Annealing.run problem config watch initial = .ok report) ∧
      Annealing.run scaled scaledConfig watch initial =
        (Annealing.run problem config watch initial).map (fun report =>
          { report with
            result := { report.result with
              bestEnergy := scale report.result.bestEnergy
              energyHistory := report.result.energyHistory.map scale
              temperatureHistory := report.result.temperatureHistory.map scale
              finalTemperature := scale report.result.finalTemperature }
            journal := report.journal.map (Event.remeasure scale scale) }) ∧
      ∀ energy n, after (Annealing.Chain.step scaled scaledConfig) n
          (Annealing.Chain.start scaledConfig initial (scale energy)) =
        (after (Annealing.Chain.step problem config) n
          (Annealing.Chain.start config initial energy)).map
            (Annealing.Chain.remeasure scale scale)) ∧
    ∀ config : Tempering.Config (Exact (realFunctions worst)), config.validate = .ok () →
      let scaledConfig : Tempering.Config (Exact (realFunctions worst)) :=
        { config with
          minTemperature := scale config.minTemperature
          maxTemperature := scale config.maxTemperature }
      scaledConfig.validate = .ok () ∧
      (problem.Total → config.reserve = .ok () →
        ∃ report, Tempering.run problem config watch initial = .ok report) ∧
      Tempering.run scaled scaledConfig watch initial =
        (Tempering.run problem config watch initial).map (fun report =>
          { report with
            result := { report.result with
              bestEnergy := scale report.result.bestEnergy
              replicaEnergies := report.result.replicaEnergies.map scale
              energyTraces := report.result.energyTraces.map (Array.map scale)
              temperatures := report.result.temperatures.map scale }
            journal := report.journal.map (Event.remeasure scale scale) }) ∧
      (∀ energy n, after (Tempering.Ensemble.round scaled scaledConfig) n
          (Tempering.Ensemble.start scaledConfig initial (scale energy)) =
        (after (Tempering.Ensemble.round problem config) n
          (Tempering.Ensemble.start config initial energy)).map
            (Tempering.Ensemble.remeasure scale scale)) ∧
      ∀ temperature n r, after (Tempering.Replica.move scaled (scale temperature)) n
          (r.remeasure scale) =
        (after (Tempering.Replica.move problem temperature) n r).map
          (Tempering.Replica.remeasure scale) := by
  intro scale scaled
  let u : UnitChange (realFunctions worst) := UnitChange.scaling worst hfactor
  have henergy : u.energy = scale := UnitChange.energy_scaling worst hfactor
  have htemperature : u.temperature = scale := rfl
  constructor
  · intro config hvalid scaledConfig
    refine ⟨?_, ?_, ?_, ?_⟩
    · exact (Annealing.Config.validate_remeasure u config).mpr hvalid
    · intro htotal
      exact Annealing.run_total htotal hvalid hstate
    · have hrun := Annealing.run_remeasure u problem config watch hvalid hstate
      rw [henergy, htemperature] at hrun
      exact hrun
    · intro energy n
      have hsteps := Annealing.after_start_remeasure u problem config initial energy n
      rw [henergy, htemperature] at hsteps
      exact hsteps
  · intro config hvalid scaledConfig
    refine ⟨?_, ?_, ?_, ?_, ?_⟩
    · exact (Tempering.Config.validate_remeasure u config).mpr hvalid
    · intro htotal hroom
      exact Tempering.run_total htotal hvalid hstate hroom
    · have hrun := Tempering.run_remeasure u problem config watch hvalid hstate
      rw [henergy, htemperature] at hrun
      exact hrun
    · intro energy n
      have hrounds := Tempering.after_start_remeasure u problem config initial energy n
      rw [henergy, htemperature] at hrounds
      exact hrounds
    · intro temperature n r
      have hmoves := after_map (Tempering.Replica.move_remeasure u problem temperature) n r
      rw [henergy, htemperature] at hmoves
      exact hmoves

/-- Half the energies at half the temperatures, and the same search. -/
theorem run_scaled_paramagnet :
    let scale : Exact (realFunctions 0) → Exact (realFunctions 0) := (⟨1 / 2⟩ * ·)
    let scaled : Problem (Exact (realFunctions 0)) := paramagnet.remeasure scale
    (0 : ℝ) < 1 / 2 ∧
    (Annealing.Config.standard : Annealing.Config (Exact (realFunctions 0))).validate = .ok () ∧
    (∃ report, Annealing.run paramagnet .standard .never [⟨1⟩] = .ok report ∧
      ∃ report', Annealing.run scaled (Annealing.Config.standard.remeasure scale) .never
          [⟨1⟩] = .ok report' ∧
        report'.result.bestState = report.result.bestState ∧
        report'.result.finalTemperature = ⟨1 / 2⟩ * report.result.finalTemperature) ∧
    (Tempering.Config.standard : Tempering.Config (Exact (realFunctions 0))).validate = .ok () ∧
    ∃ report, Tempering.run paramagnet .standard .never [⟨1⟩] = .ok report ∧
      ∃ report', Tempering.run scaled (Tempering.Config.standard.remeasure scale) .never
          [⟨1⟩] = .ok report' ∧
        report'.result.bestState = report.result.bestState ∧
        report'.result.swapRates = report.result.swapRates := by
  intro scale scaled
  have hhalf : (0 : ℝ) < 1 / 2 := one_half_pos
  obtain ⟨hanneal, htemper⟩ := run_scaled 0 paramagnet (1 / 2) hhalf .never [⟨1⟩]
    (List.cons_ne_nil _ _)
  have htotal : (paramagnet : Problem (Exact (realFunctions 0))).Total := paramagnet_total
  obtain ⟨-, hanneals, hannealed', -⟩ := hanneal .standard Annealing.Config.validate_standard
  obtain ⟨-, htempers, htempered', -⟩ := htemper .standard Tempering.Config.validate_standard
  obtain ⟨annealed, hannealed⟩ := hanneals htotal
  obtain ⟨tempered, htempered⟩ := htempers htotal Tempering.Config.reserve_standard
  rw [hannealed] at hannealed'
  rw [htempered] at htempered'
  exact ⟨hhalf, Annealing.Config.validate_standard,
    ⟨annealed, hannealed, _, hannealed', rfl, rfl⟩, Tempering.Config.validate_standard,
    tempered, htempered, _, htempered', rfl, rfl⟩

end ThermalSearch
