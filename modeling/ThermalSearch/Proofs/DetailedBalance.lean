import Mathlib.MeasureTheory.Measure.Lebesgue.Basic
import ThermalSearch.Proofs.Scalar.Reals
import ThermalSearch.Proofs.Verdict

/-!
# Detailed balance

A rule is fair when what it prescribes leaves the Boltzmann weights alone: the weight of a state times
the rate at which it is left for another is the weight of the other times the rate of the way back.

The rate of a verdict is the length of the draws from 0 up to 1 that lead to acceptance (`rate`). For
both rules it is the ratio of the new weight to the old one, or one if that is more
(`rate_metropolis`, `rate_exchange`), and so weight times rate is the lesser of the two weights, in
either direction (`exp_mul_min_one`).
-/

namespace ThermalSearch

/-! ## Draws -/

namespace Verdict

variable {worst : ℝ}

/-- The draws that lead to acceptance. -/
def draws (v : Verdict (Exact (realFunctions worst))) : Set ℝ :=
  {u | u ∈ Set.Ico 0 1 ∧ v.Accepts ⟨u⟩}

/-- How much of all draws that is. -/
noncomputable def rate (v : Verdict (Exact (realFunctions worst))) : ℝ :=
  MeasureTheory.volume.real v.draws

theorem rate_accept : (accept : Verdict (Exact (realFunctions worst))).rate = 1 := by
  have hdraws : (accept : Verdict (Exact (realFunctions worst))).draws = Set.Ico 0 1 :=
    Set.ext fun _ => and_iff_left trivial
  rw [rate, hdraws, Real.volume_real_Ico_of_le zero_le_one, sub_zero]

/-- A chance is the share of the draws below it. -/
theorem rate_chance {p : Exact (realFunctions worst)} (hp : 0 ≤ p.value) :
    (chance p).rate = min 1 p.value := by
  have hdraws : (chance p).draws = Set.Ico 0 (min 1 p.value) := by
    ext u
    show (u ∈ Set.Ico 0 1 ∧ u < p.value) ↔ u ∈ Set.Ico 0 (min 1 p.value)
    rw [Set.mem_Ico, Set.mem_Ico, lt_min_iff, and_assoc]
  rw [rate, hdraws, Real.volume_real_Ico_of_le (le_min zero_le_one hp), sub_zero]

end Verdict

/-- The draws of a generator are from 0 up to but not including 1. -/
theorem Generator.unit_mem_Ico {worst : ℝ} (g : Generator) :
    (g.unit : Exact (realFunctions worst) × Generator).1.value ∈ Set.Ico 0 1 := by
  have hword : (g.word.1 >>> 11).toNat < 2 ^ 53 := by
    rw [UInt64.toNat_shiftRight, Nat.shiftRight_eq_div_pow]
    have hlt := g.word.1.toNat_lt
    exact Nat.div_lt_of_lt_mul hlt
  have hwidth : (0 : ℝ) < (2 ^ 53 : Nat) := by norm_num
  rw [value_unit, Set.mem_Ico, div_lt_one hwidth]
  exact ⟨by positivity, by exact_mod_cast hword⟩

/-! ## Rates of the rules -/

section

variable {worst : ℝ}

/-- The chance of a move is the ratio of the weights, and no move that gains weight is refused. -/
theorem rate_metropolis (current candidate : Exact (realFunctions worst))
    {temperature : Exact (realFunctions worst)} (hpos : 0.0 < temperature) :
    (metropolis current candidate temperature).rate =
      min 1 (Real.exp (-(candidate.value - current.value) / temperature.value)) := by
  rw [Exact.lt_iff, Exact.value_zero] at hpos
  unfold metropolis
  simp only [Exact.isFinite_eq_true, Bool.not_true, Bool.false_eq_true, if_false, Exact.lt_iff,
    Exact.le_iff, Exact.value_sub, Exact.value_zero]
  by_cases hfalls : candidate.value - current.value < 0
  · have hgain : 1 ≤ Real.exp (-(candidate.value - current.value) / temperature.value) :=
      Real.one_le_exp (div_nonneg (neg_nonneg.mpr hfalls.le) hpos.le)
    rw [if_pos hfalls, Verdict.rate_accept, min_eq_left hgain]
  · rw [if_neg hfalls, if_neg hpos.not_ge]
    exact Verdict.rate_chance (Real.exp_pos _).le

theorem rate_exchange (cold hot coldEnergy hotEnergy : Exact (realFunctions worst)) :
    (exchange cold hot coldEnergy hotEnergy).rate =
      min 1 (Real.exp ((1 / cold.value - 1 / hot.value) *
        (coldEnergy.value - hotEnergy.value))) := by
  have hdefined (delta : Exact (realFunctions worst)) : Scalar.isNaN delta = false := rfl
  unfold exchange
  simp only [hdefined, Bool.false_eq_true, if_false, gt_iff_lt, Exact.lt_iff, Exact.value_mul,
    Exact.value_sub, Exact.value_div, Exact.value_one, Exact.value_zero]
  by_cases hgains : 0 < (1 / cold.value - 1 / hot.value) * (coldEnergy.value - hotEnergy.value)
  · rw [if_pos hgains, Verdict.rate_accept, min_eq_left (Real.one_le_exp hgains.le)]
  · rw [if_neg hgains]
    refine (Verdict.rate_chance (Real.exp_pos _).le).trans ?_
    show min 1 (Real.exp (_ * _)) = _
    simp only [Exact.value_sub, Exact.value_div, Exact.value_one]

/-- A weight times the ratio of another weight to it, or one if that is more. -/
theorem exp_mul_min_one (x y : ℝ) :
    Real.exp x * min 1 (Real.exp (y - x)) = min (Real.exp x) (Real.exp y) := by
  rw [mul_min_of_nonneg _ _ (Real.exp_pos x).le, mul_one, ← Real.exp_add, add_sub_cancel]

end

/-! ## Balance -/

/-- Both rules are in detailed balance with the Boltzmann weights: the Metropolis rule with those of
one chain, the exchange rule with those of two. The decisions are those of a draw from 0 up to 1. -/
theorem detailed_balance (worst : ℝ) :
    (∀ a b temperature : Exact (realFunctions worst), 0.0 < temperature →
      Real.exp (-a.value / temperature.value) * (metropolis a b temperature).rate =
        Real.exp (-b.value / temperature.value) * (metropolis b a temperature).rate) ∧
    (∀ cold hot a b : Exact (realFunctions worst), 0.0 < cold → cold < hot →
      Real.exp (-a.value / cold.value - b.value / hot.value) * (exchange cold hot a b).rate =
        Real.exp (-b.value / cold.value - a.value / hot.value) * (exchange cold hot b a).rate) ∧
    ∀ (v : Verdict (Exact (realFunctions worst))) (g : Generator),
      (v.decide g).1 = true ↔
        (g.unit : Exact (realFunctions worst) × Generator).1.value ∈ v.draws := by
  refine ⟨?_, ?_, ?_⟩
  · intro a b temperature hpos
    have hforth : -(b.value - a.value) / temperature.value =
        -b.value / temperature.value - -a.value / temperature.value := by ring
    have hback : -(a.value - b.value) / temperature.value =
        -a.value / temperature.value - -b.value / temperature.value := by ring
    rw [rate_metropolis a b hpos, rate_metropolis b a hpos, hforth, hback, exp_mul_min_one,
      exp_mul_min_one, min_comm]
  · intro cold hot a b _ _
    -- an exchange moves each energy to the other temperature
    have hforth : (1 / cold.value - 1 / hot.value) * (a.value - b.value) =
        (-b.value / cold.value - a.value / hot.value) -
          (-a.value / cold.value - b.value / hot.value) := by ring
    have hback : (1 / cold.value - 1 / hot.value) * (b.value - a.value) =
        (-a.value / cold.value - b.value / hot.value) -
          (-b.value / cold.value - a.value / hot.value) := by ring
    rw [rate_exchange, rate_exchange, hforth, hback, exp_mul_min_one, exp_mul_min_one, min_comm]
  · intro v g
    rw [Verdict.decide_iff_accepts]
    exact (and_iff_right g.unit_mem_Ico).symm

/-- At temperature one, a state of energy one is left for one of energy zero at once, and entered from
there at the rate of its weight. -/
theorem detailed_balance_step :
    let zero : Exact (realFunctions 0) := ⟨0⟩
    let one : Exact (realFunctions 0) := ⟨1⟩
    let two : Exact (realFunctions 0) := ⟨2⟩
    0.0 < one ∧ one < two ∧
    (metropolis one zero one).rate = 1 ∧ (metropolis zero one one).rate = Real.exp (-1) ∧
    Real.exp (-1) * (metropolis one zero one).rate =
      Real.exp 0 * (metropolis zero one one).rate ∧
    Real.exp (-1) * (exchange one two one zero).rate =
      Real.exp (-(1 / 2)) * (exchange one two zero one).rate := by
  intro zero one two
  have hone : 0.0 < one := by
    rw [Exact.lt_iff, Exact.value_zero]
    exact zero_lt_one
  have htwo : one < two := Exact.lt_iff.mpr one_lt_two
  have hdown : (metropolis one zero one).rate = 1 := by
    rw [rate_metropolis one zero hone]
    norm_num [one, zero]
  have hup : (metropolis zero one one).rate = Real.exp (-1) := by
    rw [rate_metropolis zero one hone]
    norm_num [one, zero]
  obtain ⟨hmoves, hexchanges, -⟩ := detailed_balance 0
  have hmove := hmoves one zero one hone
  have hexchange := hexchanges one two one zero hone htwo
  have hcold : -one.value / one.value = -1 := by norm_num [one]
  have hnone : -zero.value / one.value = 0 := by norm_num [zero]
  have hheld : -one.value / one.value - zero.value / two.value = -1 := by norm_num [one, zero]
  have hswapped : -zero.value / one.value - one.value / two.value = -(1 / 2) := by
    norm_num [one, zero, two]
  rw [hcold, hnone] at hmove
  rw [hheld, hswapped] at hexchange
  exact ⟨hone, htwo, hdown, hup, hmove, hexchange⟩

end ThermalSearch
