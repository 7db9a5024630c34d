import ThermalSearch.Proofs.Annealing.Falling
import ThermalSearch.Proofs.Annealing.RecentMoves

/-!
# Steering by acceptance

Lam–Delosme cooling raises `alpha` to an exponent that grows with the share of accepted moves among the
latest and is one at the share it aims for. As `alpha` is below one, the temperature falls with that
exponent (`strictAnti_cooling`), and each comparison of temperatures is one of exponents and so one of
shares: the more moves were accepted lately, the faster it cools, geometrically at the share aimed for.

A share is at most one, so the exponent is never cut down from above (`exponentAt_of_le_one`).
-/

namespace ThermalSearch

open Unrounded

namespace Cooler

/-! ## Exponents -/

variable {share : ℝ}

theorem exponentAt_mono : Monotone exponentAt := by
  intro share share' hle
  refine max_le_max_left _ (min_le_min_right _ ?_)
  exact div_le_div_of_nonneg_right hle (by norm_num)

theorem one_lt_exponentAt_iff : 1 < exponentAt share ↔ 0.44 < share := by
  have hlow : ¬ (1 : ℝ) < 0.25 := by norm_num
  rw [exponentAt, lt_max_iff, or_iff_right hlow, lt_min_iff, and_iff_left (by norm_num),
    one_lt_div (by norm_num)]

theorem exponentAt_lt_one_iff : exponentAt share < 1 ↔ share < 0.44 := by
  have hhigh : ¬ (4 : ℝ) < 1 := by norm_num
  rw [exponentAt, max_lt_iff, and_iff_right (by norm_num), min_lt_iff, or_iff_left hhigh,
    div_lt_one (by norm_num)]

theorem exponentAt_eq_one_iff : exponentAt share = 1 ↔ share = 0.44 := by
  rw [le_antisymm_iff, ← not_lt, ← not_lt, one_lt_exponentAt_iff, exponentAt_lt_one_iff, not_lt,
    not_lt, ← le_antisymm_iff]

/-- No share reaches the upper bound. -/
theorem exponentAt_of_le_one (hle : share ≤ 1) : exponentAt share = max 0.25 (share / 0.44) := by
  have hroom : share / 0.44 ≤ 4 := by
    rw [div_le_iff₀ (by norm_num)]
    exact hle.trans (by norm_num)
  rw [exponentAt, min_eq_left hroom]

theorem exponentAt_bounds (hle : share ≤ 1) :
    1 / 4 ≤ exponentAt share ∧ exponentAt share ≤ 1 / 0.44 := by
  rw [exponentAt_of_le_one hle]
  constructor
  · exact le_max_of_le_left (by norm_num)
  · exact max_le (by norm_num) (div_le_div_of_nonneg_right hle (by norm_num))

/-! ## Temperatures -/

variable {alpha temperature : ℝ}

/-- The greater the exponent, the lower the temperature. -/
theorem strictAnti_cooling (hpos : 0 < alpha) (hlt : alpha < 1) (htemperature : 0 < temperature) :
    StrictAnti fun e : ℝ => temperature * alpha ^ e :=
  (Real.strictAnti_rpow_of_base_lt_one hpos hlt).const_mul htemperature

/-- A cooler with the Lam–Delosme schedule that was new before these moves. -/
noncomputable def steering (alpha : ℝ) (lambda : Unrounded) (moves : List (Bool × Unrounded)) :
    Cooler Unrounded :=
  ({ schedule := .lamDelosme, alpha := finite alpha, lambda } : Cooler Unrounded).observeAll moves

variable {lambda : Unrounded} {moves : List (Bool × Unrounded)}

theorem remembers_steering : (steering alpha lambda moves).Remembers moves :=
  remembers_observeAll .lamDelosme (finite alpha) lambda moves

theorem acceptanceRatio_steering :
    (steering alpha lambda moves).acceptanceRatio = finite (recentShare ℝ (moves.map Prod.fst)) := by
  rw [acceptanceRatio, fraction_finite, remembers_steering.share ℝ]

/-- The ratio over the target is below the upper bound of exponents. -/
theorem ratio_lt_maxExponent :
    (steering alpha lambda moves).acceptanceRatio / targetAcceptance < maxExponent := by
  have htarget : (targetAcceptance : Unrounded) = finite 0.44 := rfl
  have hhigh : (maxExponent : Unrounded) = finite 4.0 := rfl
  rw [acceptanceRatio_steering, htarget, finite_div (by norm_num), hhigh, finite_lt,
    div_lt_iff₀ (by norm_num)]
  exact (recentShare_le_one ℝ _).trans_lt (by norm_num)

theorem nextTemperature_steering (hpos : 0 < alpha) (hsome : moves ≠ []) (temperature : ℝ) :
    (steering alpha lambda moves).nextTemperature (finite temperature) =
      finite (temperature * alpha ^ exponentAt (recentShare ℝ (moves.map Prod.fst))) := by
  have hremembers : (steering alpha lambda moves).Remembers moves := remembers_steering
  obtain ⟨hschedule, halpha, -⟩ : (steering alpha lambda moves).schedule = .lamDelosme ∧
      (steering alpha lambda moves).alpha = finite alpha ∧
      (steering alpha lambda moves).lambda = lambda := settings_observeAll _ moves
  have hseen : ¬ (steering alpha lambda moves).outcomes.isEmpty := by
    have hmoves : 0 < moves.length := List.length_pos_iff.mpr hsome
    rw [List.isEmpty_iff_length_eq_zero, hremembers.length_outcomes, window]
    omega
  unfold nextTemperature
  rw [hschedule]
  dsimp only
  rw [if_neg hseen, clamp_acceptanceRatio, hremembers.share ℝ, halpha, pow_finite hpos, finite_mul]

/-- The more moves were accepted lately, the lower the next temperature. -/
theorem nextTemperature_antitone (hpos : 0 < alpha) (hlt : alpha < 1) (htemperature : 0 < temperature)
    {lambda' : Unrounded} {moves' : List (Bool × Unrounded)} (hsome : moves ≠ [])
    (hsome' : moves' ≠ [])
    (hle : recentShare ℝ (moves'.map Prod.fst) ≤ recentShare ℝ (moves.map Prod.fst)) :
    (steering alpha lambda moves).nextTemperature (finite temperature) ≤
      (steering alpha lambda' moves').nextTemperature (finite temperature) := by
  rw [nextTemperature_steering hpos hsome, nextTemperature_steering hpos hsome', finite_le]
  exact (strictAnti_cooling hpos hlt htemperature).antitone (exponentAt_mono hle)

/-! ## Result -/

/-- Without rounding, Lam–Delosme cooling is the faster, the greater the share of accepted moves among
the latest. The next temperature lies between what the exponents `1 / 0.44` and `1 / 4` make of the
present one, so the upper bound of exponents is never reached. It is that of geometric cooling exactly
at the share aimed for, lower above it, and higher below it, though still lower than the present one. -/
theorem lamDelosme_steers {alpha temperature : ℝ} (hpos : 0 < alpha) (hlt : alpha < 1)
    (htemperature : 0 < temperature) (lambda : Unrounded) (moves : List (Bool × Unrounded))
    (hsome : moves ≠ []) :
    let c := steering alpha lambda moves
    let share := recentShare ℝ (moves.map Prod.fst)
    c.acceptanceRatio / targetAcceptance < maxExponent ∧
    (∃ next : ℝ, c.nextTemperature (finite temperature) = finite next ∧
      temperature * alpha ^ (1 / 0.44 : ℝ) ≤ next ∧ next ≤ temperature * alpha ^ (1 / 4 : ℝ) ∧
      (next = temperature * alpha ↔ share = 0.44) ∧
      (0.44 < share → next < temperature * alpha) ∧
      (share < 0.44 → temperature * alpha < next ∧ next < temperature)) ∧
    ∀ (lambda' : Unrounded) (moves' : List (Bool × Unrounded)), moves' ≠ [] →
      recentShare ℝ (moves'.map Prod.fst) ≤ share →
      c.nextTemperature (finite temperature) ≤
        (steering alpha lambda' moves').nextTemperature (finite temperature) := by
  intro c share
  have hcooling := strictAnti_cooling hpos hlt htemperature
  -- geometric cooling is that of exponent one, and without any the temperature would stay
  have hone : temperature * alpha = temperature * alpha ^ (1 : ℝ) := by rw [Real.rpow_one]
  have hzero : temperature = temperature * alpha ^ (0 : ℝ) := by rw [Real.rpow_zero, mul_one]
  obtain ⟨hlow, hhigh⟩ := exponentAt_bounds (recentShare_le_one ℝ (moves.map Prod.fst))
  refine ⟨ratio_lt_maxExponent, ⟨_, nextTemperature_steering hpos hsome temperature,
    hcooling.antitone hhigh, hcooling.antitone hlow, ?_, ?_, ?_⟩, ?_⟩
  · rw [hone, ← exponentAt_eq_one_iff]
    exact hcooling.injective.eq_iff
  · intro habove
    rw [hone]
    exact hcooling (one_lt_exponentAt_iff.mpr habove)
  · intro hbelow
    constructor
    · rw [hone]
      exact hcooling (exponentAt_lt_one_iff.mpr hbelow)
    · exact (hcooling (exponentAt_pos share)).trans_eq hzero.symm
  · intro lambda' moves' hsome' hle
    exact nextTemperature_antitone hpos hlt htemperature hsome hsome' hle

/-- With `alpha` a half, from temperature one: eleven accepted moves of 25 cool to a half, one that is
accepted, to wherever it leads, cools further, and one that is not, less. -/
theorem lamDelosme_steers_half :
    let target := List.replicate 11 (true, finite 1) ++ List.replicate 14 (false, finite 1)
    (0 : ℝ) < 1 / 2 ∧ (1 / 2 : ℝ) < 1 ∧ (0 : ℝ) < 1 ∧
    (steering (1 / 2) (finite 1) target).nextTemperature (finite 1) = finite (1 * (1 / 2)) ∧
    (∃ next, (steering (1 / 2) (finite 1) [(true, infinite true)]).nextTemperature (finite 1) =
      finite next ∧ next < 1 * (1 / 2)) ∧
    (∃ next, (steering (1 / 2) undefined [(false, finite 1)]).nextTemperature (finite 1) =
      finite next ∧ 1 * (1 / 2) < next ∧ next < 1) ∧
    (steering (1 / 2) (finite 1) [(true, infinite true)]).nextTemperature (finite 1) ≤
      (steering (1 / 2) undefined [(false, finite 1)]).nextTemperature (finite 1) := by
  intro target
  have hhalf : (0 : ℝ) < 1 / 2 := by norm_num
  have hhalf' : (1 / 2 : ℝ) < 1 := by norm_num
  have hshare : recentShare ℝ (target.map Prod.fst) = 0.44 := by
    have houtcomes : target.map Prod.fst = List.replicate 11 true ++ List.replicate 14 false := rfl
    rw [houtcomes, recentShare_of_length_le ℝ (by decide)]
    norm_num [List.count_replicate]
  have hfull : recentShare ℝ [true] = 1 := by
    rw [recentShare_of_length_le ℝ (by decide)]
    norm_num
  have hempty : recentShare ℝ [false] = 0 := by
    rw [recentShare_of_length_le ℝ (by decide)]
    norm_num
  obtain ⟨-, ⟨mid, hmid, -, -, hgeometric, -⟩, -⟩ :=
    lamDelosme_steers hhalf hhalf' one_pos (finite 1) target (List.cons_ne_nil _ _)
  obtain ⟨-, ⟨low, hlow, -, -, -, habove, -⟩, hslower⟩ :=
    lamDelosme_steers hhalf hhalf' one_pos (finite 1) [(true, infinite true)] (List.cons_ne_nil _ _)
  obtain ⟨-, ⟨high, hhigh, -, -, -, -, hbelow⟩, -⟩ :=
    lamDelosme_steers hhalf hhalf' one_pos undefined [(false, finite 1)] (List.cons_ne_nil _ _)
  have hmid' : mid = 1 * (1 / 2) := hgeometric.mpr hshare
  refine ⟨hhalf, hhalf', one_pos, hmid' ▸ hmid, ⟨low, hlow, habove ?_⟩, ⟨high, hhigh, hbelow ?_⟩,
    hslower undefined [(false, finite 1)] (List.cons_ne_nil _ _) ?_⟩
  · show 0.44 < recentShare ℝ [true]
    rw [hfull]
    norm_num
  · show recentShare ℝ [false] < 0.44
    rw [hempty]
    norm_num
  · show recentShare ℝ [false] ≤ recentShare ℝ [true]
    rw [hempty, hfull]
    exact zero_le_one

end Cooler

end ThermalSearch
