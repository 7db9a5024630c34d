import ThermalSearch.Proofs.Annealing.Reach
import ThermalSearch.Proofs.Model.PottsEnergy
import ThermalSearch.Solver

/-!
# What is promised of an answer to a Potts model

A search carries state numbers as ordinary numbers, and they are decoded twice: whenever the energy
of a state is looked up, and at the end. Both times the same states come out, so that the answer has
the very energy the run reports, rounding included. Nothing is asked of the model's numbers; if the
energy of the start is finite, the answer is finite and not above it.
-/

namespace ThermalSearch.Solver

section

variable {α : Type} [Scalar α] {m : Potts α} {config : Annealing.Config α}

theorem annealPotts_eq_ok {solution : Solution α (List Nat)} :
    annealPotts m config = .ok solution ↔
      config.validate = .ok () ∧
        if m.size = 0 then solution = { answer := [] }
        else ∃ report,
          Annealing.run (stateProblem m) config .never (allFirst m.size) = .ok report ∧
          solution = {
            answer := m.decode report.result.bestState
            journal :=
              report.journal ++ [.pottsAnnealed m.size m.states report.result.bestEnergy] } := by
  unfold annealPotts
  rw [check_eq_ok_iff, liftRejection_eq_ok_iff]
  refine and_congr_right fun _ => ?_
  by_cases hempty : m.size = 0
  · rw [if_pos hempty, if_pos hempty]
    exact ⟨fun h => (Except.ok.inj h).symm, fun h => congrArg Except.ok h.symm⟩
  · rw [if_neg hempty, if_neg hempty, bind_eq_ok_iff]
    refine exists_congr fun report => and_congr_right fun _ => ?_
    exact ⟨fun h => (Except.ok.inj h).symm, fun h => congrArg Except.ok h.symm⟩

theorem total_stateProblem (hfits : m.Fits) (hstates : 0 < m.states) : (stateProblem m).Total where
  energy := Potts.exists_energy hfits hstates
  propose := exists_reassign m.states

/-- A search never changes the number of spins. -/
theorem keeps_length (m : Potts α) (n : Nat) : (stateProblem m).Keeps (·.length = n) :=
  fun hlength hnext => (length_reassign hnext).trans hlength

end

/-! ## Binary floating point -/

variable {m : Potts Float} {config : Annealing.Config Float}

/-- The search starts with every spin in its first state. -/
theorem decode_allFirst (m : Potts Float) (n : Nat) :
    m.decode (allFirst n) = List.replicate n 0 := by
  have hfirst : m.decodeOne 0.0 = 0 := by
    have hnearest : Scalar.nearest (0.0 : Float) = 0 := by rfl
    unfold Potts.decodeOne
    rw [hnearest]
    exact Nat.zero_min _
  unfold Potts.decode allFirst
  rw [List.map_replicate, hfirst]

/-- The answer of a run is an assignment, and has the energy the run reports. -/
theorem evaluate_decode_of_run (hstates : 0 < m.states)
    {report : Report Float (Annealing.Result Float)}
    (hrun : Annealing.run (stateProblem m) config .never (allFirst m.size) = .ok report) :
    (m.decode report.result.bestState).length = m.size ∧
      m.evaluate (m.decode report.result.bestState) = .ok report.result.bestEnergy := by
  have hlength : report.result.bestState.length = m.size :=
    Annealing.of_bestState hrun List.length_replicate (keeps_length m m.size)
  have hsound : m.energy report.result.bestState = .ok report.result.bestEnergy :=
    (Annealing.best_of_run hrun).1
  rw [Potts.energy_of_length hlength] at hsound
  have hdecoded : (m.decode report.result.bestState).length = m.size :=
    (Potts.length_decode m _).trans hlength
  exact ⟨hdecoded, Potts.evaluate_eq_ok_iff.mpr ⟨hdecoded, Potts.decode_lt hstates _, hsound⟩⟩

/-- The energy of the start is that of all spins in their first state. -/
theorem energy_allFirst (m : Potts Float) :
    m.energy (allFirst m.size) = m.energyOf (List.replicate m.size 0) := by
  have hlength : (allFirst m.size : State Float).length = m.size := List.length_replicate
  rw [Potts.energy_of_length hlength, decode_allFirst]

/-- Annealing answers with a state that there is for each spin, and with the energy the run reports;
if the energy of all spins in their first state is finite, that of the answer is finite and not
above it. -/
theorem annealPotts_answers (m : Potts Float) (hfits : m.Fits) (hstates : 0 < m.states)
    (config : Annealing.Config Float) (hvalid : config.validate = .ok ()) :
    ∃ solution energy start, annealPotts m config = .ok solution ∧
      solution.answer.length = m.size ∧ (∀ s ∈ solution.answer, s < m.states) ∧
      m.evaluate solution.answer = .ok energy ∧
      m.evaluate (List.replicate m.size 0) = .ok start ∧
      (start.isFinite → energy.isFinite ∧ energy ≤ start) ∧
      (m.size ≠ 0 → ∃ report,
        Annealing.run (stateProblem m) config .never (allFirst m.size) = .ok report ∧
        energy = report.result.bestEnergy) := by
  have hfirst : ∀ s ∈ List.replicate m.size 0, s < m.states :=
    fun s hs => (List.eq_of_mem_replicate hs).symm ▸ hstates
  obtain ⟨start, hstart⟩ : ∃ start, m.energyOf (List.replicate m.size 0) = .ok start :=
    ⟨_, Potts.energyOf_eq_ok hfits ⟨Nat.le_of_eq List.length_replicate.symm, hfirst⟩⟩
  have hevaluate : m.evaluate (List.replicate m.size 0) = .ok start :=
    Potts.evaluate_eq_ok_iff.mpr ⟨List.length_replicate, hfirst, hstart⟩
  by_cases hempty : m.size = 0
  · -- without spins there is one assignment, the start
    have hsolution : annealPotts m config = .ok { answer := [] } :=
      annealPotts_eq_ok.mpr ⟨hvalid, by rw [if_pos hempty]⟩
    have hnil : List.replicate m.size 0 = [] := by rw [hempty, List.replicate_zero]
    rw [hnil] at hevaluate ⊢
    refine ⟨_, start, start, hsolution, hempty.symm, by simp, hevaluate, hevaluate, ?_, ?_⟩
    · exact fun hfinite => ⟨hfinite, FiniteOrder.le_refl hfinite⟩
    · exact fun hsome => absurd hempty hsome
  · have hne : (allFirst m.size : State Float) ≠ [] := by
      unfold allFirst
      rw [Ne, List.replicate_eq_nil_iff]
      exact hempty
    obtain ⟨report, hrun⟩ := Annealing.run_total (total_stateProblem hfits hstates) hvalid hne
    obtain ⟨hlength, henergy⟩ := evaluate_decode_of_run hstates hrun
    obtain ⟨-, energy, hinitial, hnoWorse⟩ := Annealing.best_of_run hrun
    -- the engine looks its start up as a state, the evaluator as an assignment
    have hsame : energy = start := by
      have hsearch : m.energyOf (List.replicate m.size 0) = .ok energy :=
        (energy_allFirst m).symm.trans hinitial
      exact Except.ok.inj (hsearch.symm.trans hstart)
    have hsolution := annealPotts_eq_ok.mpr ⟨hvalid, by
      rw [if_neg hempty]
      exact ⟨report, hrun, rfl⟩⟩
    refine ⟨_, report.result.bestEnergy, start, hsolution, hlength, Potts.decode_lt hstates _,
      henergy, hevaluate, ?_, fun _ => ⟨report, hrun, rfl⟩⟩
    intro hfinite
    rw [← hsame] at hfinite ⊢
    exact hnoWorse hfinite

/-- Two spins that would rather not be in the same of two states. -/
def strangers : Potts Float where
  states := 2
  couplings := { size := 2, cells := #[0.0, -1.0, -1.0, 0.0] }
  field := #[0.0, 0.0, 0.0, 0.0]

/-- They start in the same state and cannot end worse off. -/
theorem annealPotts_answers_strangers : strangers.Fits ∧
    (Annealing.Config.standard : Annealing.Config Float).validate = .ok () ∧
    ∃ solution energy, annealPotts strangers .standard = .ok solution ∧
      solution.answer.length = 2 ∧ strangers.evaluate solution.answer = .ok energy ∧
      energy.isFinite ∧ energy ≤ 1.0 := by
  have hfits : strangers.Fits := ⟨⟨by rfl, by decide⟩, by rfl, by decide⟩
  have hvalid : (Annealing.Config.standard : Annealing.Config Float).validate = .ok () := by rfl
  obtain ⟨solution, energy, start, hsolution, hlength, -, henergy, hstart, hbelow, -⟩ :=
    annealPotts_answers strangers hfits (by decide) .standard hvalid
  have hevaluated : strangers.evaluate (List.replicate strangers.size 0) = .ok 1.0 := by rfl
  cases hstart.symm.trans hevaluated
  have hfinite : (1.0 : Float).isFinite = true := by rfl
  obtain ⟨henergyFinite, hle⟩ := hbelow hfinite
  exact ⟨hfits, hvalid, solution, energy, hsolution, hlength, henergy, henergyFinite, hle⟩

end ThermalSearch.Solver
