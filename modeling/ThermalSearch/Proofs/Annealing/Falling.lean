import ThermalSearch.Proofs.Annealing.Temperatures
import ThermalSearch.Proofs.Scalar.Unrounded
import ThermalSearch.Proofs.Settings

/-!
# Cooling never heats

Without rounding each schedule multiplies the temperature by a positive factor of at most one
(`exists_factor`), whatever the windows it looks at hold: the exponent of Lam–Delosme cooling is kept
between positive bounds, and the spread of energies that Huang cooling divides by is positive. Reheating
goes back to a part of the initial temperature. So a temperature is raised by reheats only, is always
positive, and never exceeds the initial one (`temperatures_fall`).
-/

namespace ThermalSearch

open Unrounded

/-! ## Factors -/

namespace Cooler

variable {c : Cooler Unrounded} {alpha lambda temperature : ℝ}

/-- The exponent of Lam–Delosme cooling at a share of accepted moves. -/
noncomputable def exponentAt (share : ℝ) : ℝ := max 0.25 (min (share / 0.44) 4)

theorem exponentAt_pos (share : ℝ) : 0 < exponentAt share :=
  lt_max_of_lt_left (by norm_num)

theorem clamp_acceptanceRatio (c : Cooler Unrounded) :
    Scalar.clamp (c.acceptanceRatio / targetAcceptance) minExponent maxExponent =
      finite (exponentAt (c.accepted / c.outcomes.length)) := by
  have htarget : (targetAcceptance : Unrounded) = finite 0.44 := rfl
  have hlow : (minExponent : Unrounded) = finite 0.25 := rfl
  have hhigh : (maxExponent : Unrounded) = finite 4 := by
    rw [maxExponent, ofScientific_finite]
    norm_num
  rw [acceptanceRatio, fraction_finite, htarget, finite_div (by norm_num), hlow, hhigh,
    clamp_finite (by norm_num)]
  rfl

/-- A power with a base below one and an exponent between positive bounds. -/
theorem exists_power (hpos : 0 < alpha) (hlt : alpha < 1) :
    ∃ x, 0 < x ∧ x ≤ 1 ∧ Scalar.pow (finite alpha)
      (Scalar.clamp (c.acceptanceRatio / targetAcceptance) minExponent maxExponent) =
        finite x := by
  rw [clamp_acceptanceRatio, pow_finite hpos]
  exact ⟨_, Real.rpow_pos_of_pos hpos _, Real.rpow_le_one hpos.le hlt.le (exponentAt_pos _).le, rfl⟩

/-- The hotter the run and the narrower the spread of energies, the smaller the factor. An infinite
spread leaves the temperature as it is. -/
theorem exists_decay (hlambda : 0 < lambda) (htemperature : 0 < temperature) {sigma : Unrounded}
    (hsigma : 0.0 < sigma) :
    ∃ x, 0 < x ∧ x ≤ 1 ∧
      Scalar.exp (-finite temperature * finite lambda / sigma) = finite x := by
  rw [neg_finite, finite_mul]
  have hexponent : -temperature * lambda < 0 := mul_neg_of_neg_of_pos (by linarith) hlambda
  rcases pos_cases hsigma with ⟨s, hs, rfl⟩ | rfl
  · rw [finite_div hs.ne', exp_finite]
    exact ⟨_, Real.exp_pos _, Real.exp_le_one_iff.mpr (div_neg_of_neg_of_pos hexponent hs).le, rfl⟩
  · have hzero : finite (-temperature * lambda) / infinite true = finite 0 := rfl
    rw [hzero, exp_finite]
    exact ⟨_, Real.exp_pos _, Real.exp_le_one_iff.mpr le_rfl, rfl⟩

/-- Whatever the windows hold, the next temperature is a part of the present one. -/
theorem exists_factor (halpha : c.alpha = finite alpha) (hpos : 0 < alpha) (hlt : alpha < 1)
    (hlambda : c.lambda = finite lambda) (hlambda' : 0 < lambda) (htemperature : 0 < temperature) :
    ∃ x, 0 < x ∧ x ≤ 1 ∧
      c.nextTemperature (finite temperature) = finite (temperature * x) := by
  have hgeometric : ∃ x, 0 < x ∧ x ≤ 1 ∧
      finite temperature * c.alpha = finite (temperature * x) :=
    ⟨alpha, hpos, hlt.le, by rw [halpha, finite_mul]⟩
  unfold nextTemperature
  cases c.schedule with
  | geometric => exact hgeometric
  | lamDelosme =>
    dsimp only
    split
    next => exact hgeometric
    next =>
      obtain ⟨x, hx, hx', hpower⟩ := exists_power (c := c) hpos hlt
      exact ⟨x, hx, hx', by rw [halpha, hpower, finite_mul]⟩
  | huang =>
    dsimp only
    split
    next sigma =>
      split
      next hsigma =>
        obtain ⟨x, hx, hx', hdecay⟩ := exists_decay hlambda' htemperature hsigma
        exact ⟨x, hx, hx', by rw [hlambda, hdecay, finite_mul]⟩
      next => exact hgeometric
    next => exact hgeometric

end Cooler

/-! ## The recurrence -/

namespace Annealing

variable {config : Config Unrounded}

/-- What accepted settings are, as real numbers. -/
theorem Config.exists_reals (hvalid : config.validate = .ok ()) :
    ∃ initial alpha fraction lambda : ℝ, config.initialTemperature = finite initial ∧
      config.alpha = finite alpha ∧ config.reheatFraction = finite fraction ∧
      config.huangLambda = finite lambda ∧ 0 < initial ∧ (0 < alpha ∧ alpha < 1) ∧
      (0 < fraction ∧ fraction ≤ 1) ∧ 0 < lambda := by
  obtain ⟨⟨hinitial, hfinal, halpha, hfraction, hlambda⟩, hrules⟩ :=
    Config.validate_eq_ok_iff.mp hvalid
  obtain ⟨initial, hinitial⟩ := isFinite_iff.mp hinitial
  obtain ⟨final, hfinal⟩ := isFinite_iff.mp hfinal
  obtain ⟨alpha, halpha⟩ := isFinite_iff.mp halpha
  obtain ⟨fraction, hfraction⟩ := isFinite_iff.mp hfraction
  obtain ⟨lambda, hlambda⟩ := isFinite_iff.mp hlambda
  rw [hinitial, hfinal, halpha, hfraction, hlambda] at hrules
  simp only [zero_eq, one_eq, finite_le, finite_lt, not_le, not_lt] at hrules
  obtain ⟨hfinalPos, hfalls, hpos, hlt, hfractionPos, hfractionLe, hlambdaPos⟩ := hrules
  exact ⟨initial, alpha, fraction, lambda, hinitial, halpha, hfraction, hlambda,
    hfinalPos.trans hfalls, ⟨hpos, hlt⟩, ⟨hfractionPos, hfractionLe⟩, hlambdaPos⟩

/-- One move lowers a positive temperature or leaves it as it is, unless it is followed by a reheat. -/
theorem Config.exists_temperatureAt_succ (hvalid : config.validate = .ok ())
    (outcomes : List Bool) (energies : List Unrounded) {k : Nat} {t : ℝ} (ht : 0 < t)
    (hk : config.temperatureAt outcomes energies k = finite t)
    (hreheat : ¬ config.ReheatsAfter (k + 1)) :
    ∃ t', 0 < t' ∧ t' ≤ t ∧ config.temperatureAt outcomes energies (k + 1) = finite t' := by
  obtain ⟨-, alpha, -, lambda, -, halpha, -, hlambda, -, ⟨hpos, hlt⟩, -, hlambdaPos⟩ :=
    Config.exists_reals hvalid
  rw [temperatureAt, if_neg hreheat, hk]
  obtain ⟨x, hx, hx', hnext⟩ := (Cooler.ofMoves config.cooling config.alpha config.huangLambda
    (outcomes.take (k + 1)) (energies.take (k + 1))).exists_factor halpha hpos hlt hlambda
      hlambdaPos ht
  exact ⟨t * x, mul_pos ht hx, mul_le_of_le_one_right ht.le hx', hnext⟩

/-- All temperatures are positive, and none is higher than the initial one. -/
theorem Config.exists_temperatureAt (hvalid : config.validate = .ok ()) (outcomes : List Bool)
    (energies : List Unrounded) (k : Nat) : ∃ t : ℝ, 0 < t ∧
      finite t ≤ config.initialTemperature ∧
      config.temperatureAt outcomes energies k = finite t := by
  obtain ⟨initial, -, fraction, -, hinitial, -, hfraction, -, hpos, -, ⟨hlow, hhigh⟩, -⟩ :=
    Config.exists_reals hvalid
  induction k with
  | zero => exact ⟨initial, hpos, by rw [hinitial, finite_le], hinitial⟩
  | succ k ih =>
    obtain ⟨t, ht, hle, hk⟩ := ih
    by_cases hreheat : config.ReheatsAfter (k + 1)
    · rw [temperatureAt, if_pos hreheat, hinitial, hfraction, finite_mul]
      exact ⟨initial * fraction, mul_pos hpos hlow,
        finite_le.mpr (mul_le_of_le_one_right hpos.le hhigh), rfl⟩
    · obtain ⟨t', ht', hle', hnext⟩ :=
        Config.exists_temperatureAt_succ hvalid outcomes energies ht hk hreheat
      rw [hinitial, finite_le] at hle
      exact ⟨t', ht', by rw [hinitial, finite_le]; exact hle'.trans hle, hnext⟩

/-! ## Result -/

/-- Without rounding, no temperature of a run is higher than the one before unless there was a reheat,
which goes back to the reheat temperature. All temperatures are positive and at most the initial one,
and so is the reheat temperature. -/
theorem temperatures_fall (problem : Problem Unrounded) (config : Config Unrounded) (watch : Watch)
    (initial : State Unrounded) :
    (problem.Total → config.validate = .ok () → initial ≠ [] →
      ∃ report, run problem config watch initial = .ok report) ∧
    ∀ report, run problem config watch initial = .ok report →
      let r := report.result
      r.temperatures.length = r.iterations + 1 ∧
      (∀ k t t', r.temperatures[k]? = some t → r.temperatures[k + 1]? = some t' →
        (¬ config.ReheatsAfter (k + 1) → t' ≤ t) ∧
        (config.ReheatsAfter (k + 1) → t' = config.reheatTemperature)) ∧
      config.reheatTemperature ≤ config.initialTemperature ∧
      ∀ t ∈ r.temperatures, 0.0 < t ∧ t ≤ config.initialTemperature := by
  refine ⟨run_total, ?_⟩
  intro report hrun r
  obtain ⟨hvalid, -⟩ := run_eq_ok.mp hrun
  obtain ⟨hlength, -, outcomes, hentry⟩ := temperatures_of_run hrun
  generalize report.result.energyHistory.toList = energies at hentry
  refine ⟨hlength, ?_, ?_, ?_⟩
  · intro k t t' ht ht'
    constructor
    · intro hreheat
      obtain ⟨x, hx, -, hk⟩ := Config.exists_temperatureAt hvalid outcomes energies k
      obtain ⟨x', -, hle, hk'⟩ :=
        Config.exists_temperatureAt_succ hvalid outcomes energies hx hk hreheat
      rw [← hentry ht, ← hentry ht', hk, hk', finite_le]
      exact hle
    · intro hreheat
      rw [← hentry ht', Config.temperatureAt, if_pos hreheat]
      rfl
  · obtain ⟨initial, -, fraction, -, hinitial, -, hfraction, -, hpos, -, ⟨-, hhigh⟩, -⟩ :=
      Config.exists_reals hvalid
    rw [Config.reheatTemperature, hinitial, hfraction, finite_mul, finite_le]
    exact mul_le_of_le_one_right hpos.le hhigh
  · intro t ht
    obtain ⟨k, hk⟩ := List.mem_iff_getElem?.mp ht
    obtain ⟨x, hx, hle, htemperature⟩ := Config.exists_temperatureAt hvalid outcomes energies k
    rw [← hentry hk, htemperature, zero_eq, finite_lt]
    exact ⟨hx, hle⟩

/-- No state has a finite energy, so Huang cooling has no spread to go by. -/
noncomputable def fog : Problem Unrounded where
  energy _ := .ok Scalar.infinity
  propose state g := .ok (state, g)

theorem fog_total : fog.Total where
  energy _ := ⟨_, rfl⟩
  propose _ _ := ⟨_, rfl⟩

noncomputable def oneHuangMove : Config Unrounded :=
  { Config.standard with cooling := .huang, maxIterations := 1 }

theorem validate_oneHuangMove : oneHuangMove.validate = .ok () := by
  rw [Config.validate_eq_ok_iff]
  simp only [oneHuangMove, Config.standard, ofScientific_finite, finite_le, finite_lt, isFinite_iff,
    Unrounded.finite.injEq, exists_eq']
  norm_num

/-- One move in the fog cools from 100 to 95. -/
theorem temperatures_fall_fog :
    fog.Total ∧ oneHuangMove.validate = .ok () ∧
    ∃ report, run fog oneHuangMove .never [finite 3] = .ok report ∧
      report.result.temperatures = [100.0, 100.0 * 0.95] ∧
      (100.0 * 0.95 : Unrounded) ≤ 100.0 ∧ (0.0 : Unrounded) < 100.0 * 0.95 := by
  have hwarm : ¬ (100.0 : Unrounded) < 0.001 := by
    rw [ofScientific_finite, ofScientific_finite, finite_lt]
    norm_num
  obtain ⟨c, hadvance, htemperatures⟩ : ∃ c,
      (Chain.start oneHuangMove [finite 3] (infinite true)).advance fog oneHuangMove .never 1 =
        .ok (.budgetSpent, c) ∧
      (c.result .budgetSpent).temperatures = [100.0, 100.0 * 0.95] :=
    ⟨_, if_neg hwarm, rfl⟩
  have hrun : run fog oneHuangMove .never [finite 3] = .ok (c.report .budgetSpent) :=
    run_eq_ok.mpr ⟨validate_oneHuangMove, List.cons_ne_nil _ _, _, rfl, _, c, hadvance, rfl⟩
  have hnever : ¬ oneHuangMove.ReheatsAfter 1 := by decide
  obtain ⟨-, hsteps, -, hall⟩ :=
    (temperatures_fall fog oneHuangMove .never [finite 3]).2 _ hrun
  have hfalls := (hsteps 0 100.0 (100.0 * 0.95) (congrArg (·[0]?) htemperatures)
    (congrArg (·[1]?) htemperatures)).1 hnever
  have hpos := (hall (100.0 * 0.95) (htemperatures ▸ by simp)).1
  exact ⟨fog_total, validate_oneHuangMove, _, hrun, htemperatures, hfalls, hpos⟩

end Annealing

end ThermalSearch
