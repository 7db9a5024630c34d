import ThermalSearch.Proofs.Model.FiniteSpinModel
import ThermalSearch.Proofs.Solver.QuboGuarantee

/-!
# When the energy of the start is genuine

A search asks for finite coefficients and compares every candidate with the energy it starts from. This
energy is a sum of fields, and each field a sum of coefficients; both may leave the range of floats
although every coefficient is in it, and then nothing that is finite is worse than the start
(`overloaded_start`). Couplings are always finite. Where three times the coefficients sum up to a number
in range, as they do for any number of bits if none of them exceeds `2 ^ 957`, every state has a finite
energy and the answer is not worse than the start (`genuine_start`).
-/

namespace ThermalSearch.Solver

open Finset Qubo Binary64

variable {q : Qubo Float} {m : Ising Float}

theorem isSpins_allDown (n : Nat) : (allDown n : State Float).IsSpins := by
  intro σ hσ
  exact Or.inr (List.eq_of_mem_replicate hσ)

/-- A table of so many coefficients fits into no memory that they would sum up to infinity. -/
theorem weight_le (hfits : q.Fits)
    (hsmall : ∀ i < q.size, ∀ j < q.size, |value (q.coefficient i j)| ≤ 2 ^ (957 : ℤ)) :
    3 * q.weight ≤ greatest := by
  have hsquare : (q.size : ℝ) * q.size ≤ 2 ^ (64 : ℤ) := by
    have hwords : q.size * q.size ≤ 2 ^ 64 := by
      have hfew := hfits.words
      rw [Nat.mul_succ] at hfew
      omega
    exact_mod_cast hwords
  have hrow : ∀ i ∈ range q.size, q.rowWeight i ≤ q.size * 2 ^ (957 : ℤ) := by
    intro i hi
    calc q.rowWeight i ≤ ∑ _j ∈ range q.size, (2 : ℝ) ^ (957 : ℤ) :=
          sum_le_sum fun j hj => hsmall i (mem_range.mp hi) j (mem_range.mp hj)
      _ = q.size * 2 ^ (957 : ℤ) := by rw [sum_const, card_range, nsmul_eq_mul]
  have hweight : q.weight ≤ 2 ^ (1021 : ℤ) := by
    calc q.weight ≤ ∑ _i ∈ range q.size, (q.size : ℝ) * 2 ^ (957 : ℤ) := sum_le_sum hrow
      _ = q.size * q.size * 2 ^ (957 : ℤ) := by
          rw [sum_const, card_range, nsmul_eq_mul, mul_assoc]
      _ ≤ 2 ^ (64 : ℤ) * 2 ^ (957 : ℤ) := by gcongr
      _ = 2 ^ (1021 : ℤ) := by rw [← zpow_add₀ two_ne_zero]; norm_num
  have hrange : 3 * (2 : ℝ) ^ (1021 : ℤ) ≤ greatest := by
    calc 3 * (2 : ℝ) ^ (1021 : ℤ) ≤ 2 ^ (2 : ℤ) * 2 ^ (1021 : ℤ) := by gcongr; norm_num
      _ = 2 ^ (1023 : ℤ) := by rw [← zpow_add₀ two_ne_zero]; norm_num
      _ ≤ greatest := (zpow_lt_greatest (by norm_num)).le
  linarith

/-- A search through the spin model of a QUBO with finite coefficients. Couplings are finite, whatever the
coefficients are. A field is finite if the coefficients of its bit sum up to a number in range. If three
times all coefficients do, so is the energy of every state, that of the start included, and both
searches end with a finite energy that is not above that of the start. This is so for any number of bits
if no coefficient exceeds `2 ^ 957`. -/
theorem genuine_start (q : Qubo Float) (hfits : q.Fits) (hfinite : q.isFinite = true) :
    ((∃ m, q.toIsing = .ok m) ↔ q.size * q.size * 8 < 2 ^ 63) ∧
    ((∀ i < q.size, ∀ j < q.size, |value (q.coefficient i j)| ≤ 2 ^ (957 : ℤ)) →
      3 * q.weight ≤ greatest) ∧
    ∀ m, q.toIsing = .ok m →
      (∀ i < q.size, ∀ j < q.size, ∃ c, m.coupling i j = .ok c ∧ c.isFinite) ∧
      (∀ i < q.size, q.rowWeight i ≤ greatest → ∃ h, m.fieldAt i = .ok h ∧ h.isFinite) ∧
      (3 * q.weight ≤ greatest →
        (∀ s : State Float, s.IsSpins → s.length = q.size →
          ∃ energy, m.energy s = .ok energy ∧ energy.isFinite) ∧
        ∃ energy, (spinProblem m).energy (allDown q.size) = .ok energy ∧ energy.isFinite ∧
          (∀ config report,
            Annealing.run (spinProblem m) config .never (allDown q.size) = .ok report →
              report.result.bestEnergy.isFinite ∧ report.result.bestEnergy ≤ energy) ∧
          ∀ config report,
            Tempering.run (spinProblem m) config .never (allDown q.size) = .ok report →
              report.result.bestEnergy.isFinite ∧ report.result.bestEnergy ≤ energy) := by
  refine ⟨exists_toIsing_iff hfits, weight_le hfits, ?_⟩
  intro m hm
  have hmirrored : q.IsMirroredBy m := isMirroredBy_of_toIsing hfits hm
  refine ⟨?_, ?_, ?_⟩
  · intro i hi j hj
    exact ⟨_, hmirrored.fits.coupling_eq_ok (hmirrored.size ▸ hi) (hmirrored.size ▸ hj),
      isFinite_coupling hfits hfinite hm hi hj⟩
  · intro i hi hrow
    refine ⟨_, hmirrored.fits.fieldAt_eq_ok (hmirrored.size ▸ hi), ?_⟩
    rw [hmirrored.field i hi trivial]
    exact (within_spinField hfits hfinite hi hrow).finite
  · intro hrange
    have hall : ∀ s : State Float, s.IsSpins → s.length = q.size →
        ∃ energy, m.energy s = .ok energy ∧ energy.isFinite := by
      intro s hs hlength
      obtain ⟨energy, henergy, hwithin⟩ :=
        within_energy hfits hfinite hmirrored hs hlength hrange
      exact ⟨energy, henergy, hwithin.finite⟩
    obtain ⟨energy, henergy, hgenuine⟩ :=
      hall (allDown q.size) (isSpins_allDown q.size) List.length_replicate
    -- a run does not end above a start that is finite
    refine ⟨hall, energy, henergy, hgenuine, ?_, ?_⟩
    · intro config report hrun
      obtain ⟨start, hstart, hnoWorse⟩ := (Annealing.best_of_run hrun).2
      cases henergy.symm.trans hstart
      exact hnoWorse hgenuine
    · intro config report hrun
      obtain ⟨start, hstart, hnoWorse⟩ := (Tempering.best_of_run hrun).2
      cases henergy.symm.trans hstart
      exact hnoWorse hgenuine

/-- Two bits that are worth setting, but not both. -/
def alternatives : Qubo Float := { size := 2, entries := #[-(1.0), 2.0, -(1.0)] }

theorem fits_alternatives : alternatives.Fits := ⟨rfl, by decide⟩

theorem small_alternatives : ∀ i < alternatives.size, ∀ j < alternatives.size,
    |value (alternatives.coefficient i j)| ≤ 2 ^ (957 : ℤ) := by
  have hone : value (-(1.0)) = -1 := by rw [value_neg (by rfl), value_one]
  have hpower : (2 : ℝ) ≤ 2 ^ (957 : ℤ) := by
    calc (2 : ℝ) = 2 ^ (1 : ℤ) := (zpow_one 2).symm
      _ ≤ 2 ^ (957 : ℤ) := zpow_le_zpow_right₀ one_le_two (by norm_num)
  intro i hi j hj
  have hcoefficient : value (alternatives.coefficient i j) = -1 ∨
      value (alternatives.coefficient i j) = 2 := by
    rcases Nat.le_one_iff_eq_zero_or_eq_one.mp (Nat.le_of_lt_succ hi) with rfl | rfl <;>
      rcases Nat.le_one_iff_eq_zero_or_eq_one.mp (Nat.le_of_lt_succ hj) with rfl | rfl
    · exact Or.inl hone
    · exact Or.inr value_two
    · exact Or.inr value_two
    · exact Or.inl hone
  rcases hcoefficient with hvalue | hvalue
  · rw [hvalue, abs_neg, abs_one]
    exact one_le_two.trans hpower
  · rw [hvalue, abs_two]
    exact hpower

theorem genuine_start_alternatives : alternatives.Fits ∧ alternatives.isFinite = true ∧
    3 * alternatives.weight ≤ greatest ∧
    ∃ m energy report, alternatives.toIsing = .ok m ∧
      (spinProblem m).energy (allDown 2) = .ok energy ∧ energy.isFinite ∧
      Annealing.run (spinProblem m) .standard .never (allDown 2) = .ok report ∧
      report.result.bestEnergy ≤ energy := by
  have hfinite : alternatives.isFinite = true := by decide +kernel
  obtain ⟨hroom, hsmall, hgenuine⟩ := genuine_start alternatives fits_alternatives hfinite
  have hrange := hsmall small_alternatives
  obtain ⟨m, hm⟩ := hroom.mpr (by decide)
  obtain ⟨energy, henergy, hstart, hanneal, -⟩ := ((hgenuine m hm).2.2 hrange).2
  have hvalid : (Annealing.Config.standard : Annealing.Config Float).validate = .ok () := by rfl
  obtain ⟨report, hrun⟩ := Annealing.run_total
    (total_spinProblem (isMirroredBy_of_toIsing fits_alternatives hm).fits) hvalid
    (allDown_ne_nil (show alternatives.size ≠ 0 by decide))
  exact ⟨fits_alternatives, hfinite, hrange, m, energy, report, hm, henergy, hstart, hrun,
    (hanneal _ report hrun).2⟩

/-- Four bits whose fields sum up to a number in range, but not from left to right. -/
def overloaded : Qubo Float :=
  let most := Float.ofBits 0x7fefffffffffffff
  { size := 4, entries := #[most, 0.0, 0.0, 0.0, most, 0.0, 0.0, most, 0.0, -most] }

/-- One move. -/
def hasty : Annealing.Config Float :=
  { Annealing.Config.standard with maxIterations := 1, seed := 1 }

/-- Without the bound the start may count for minus infinity. The first candidate replaces it, and the
answer is worse than no bit at all, whose energy is zero. -/
theorem overloaded_start : overloaded.isFinite = true ∧
    (do (← overloaded.toIsing).energy (allDown 4)) = .ok (-Scalar.infinity) ∧
    (annealQubo overloaded hasty).toOption.map (·.answer) = some [0, 1, 0, 0] ∧
    (overloaded.evaluate [0, 1, 0, 0]).toOption = some (Float.ofBits 0x7fefffffffffffff) := by
  refine ⟨?_, ?_, ?_, ?_⟩ <;> decide +kernel

end ThermalSearch.Solver
