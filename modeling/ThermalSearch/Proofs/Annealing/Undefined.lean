import ThermalSearch.Proofs.Annealing.Temperatures
import ThermalSearch.Proofs.Scalar.Overflow
import ThermalSearch.Proofs.Settings
import ThermalSearch.Sample.Walk

/-!
# Undefined temperatures

Huang cooling divides the product of the temperature and its constant by the spread of the latest
energies. In binary floating point both may be infinite although settings and energies are finite:
the squares of deviations overflow long before the energies do. Infinity by infinity is undefined, so
the temperature that follows is undefined, and so are all that are computed from it, up to the next
reheat. Nothing undefined is below the final temperature, so the run does not end for being cold.

There is no other way for a temperature to get undefined (`undefined_temperatures`). All other steps
multiply it by a number from 0 to 1 (`nextTemperature_cases`), and what is finite and not negative
stays so (`IsTemperature.mul`).
-/

namespace ThermalSearch

namespace Binary64

/-- What cooling asks of the elementary functions: exponentials of what is not positive and positive
powers of fractions are not negative and at most one, and nothing undefined becomes defined. -/
structure Elementary.Contracting (f : Elementary) : Prop where
  exp_isNaN : ∀ {x : Float}, x.isNaN → (f.exp x).isNaN
  exp_nonpos : ∀ {x : Float}, x ≤ 0.0 → 0.0 ≤ f.exp x ∧ f.exp x ≤ 1.0
  pow_fraction : ∀ {x y : Float}, 0.0 < x → x < 1.0 → 0.0 < y → y.isFinite →
    0.0 ≤ f.pow x y ∧ f.pow x y ≤ 1.0

theorem Rounded.isFinite_zero {f : Elementary} : Scalar.isFinite (0.0 : Rounded f) = true := by
  show (0.0 : Float).isFinite = true
  rfl

theorem Rounded.isFinite_one {f : Elementary} : Scalar.isFinite (1.0 : Rounded f) = true := by
  show (1.0 : Float).isFinite = true
  rfl

end Binary64

open Binary64

/-! ## Temperatures -/

/-- Finite and not negative. -/
structure IsTemperature {α : Type} [Scalar α] (t : α) : Prop where
  finite : Scalar.isFinite t = true
  nonneg : 0.0 ≤ t

/-- A number from 0 to 1. -/
structure IsFraction {α : Type} [Scalar α] (x : α) : Prop where
  nonneg : 0.0 ≤ x
  le_one : x ≤ 1.0

section

variable {f : Elementary} {t x : Rounded f}

theorem IsTemperature.defined (h : IsTemperature t) : Scalar.isNaN t = false :=
  Bool.eq_false_iff.mpr (defined_of_le h.nonneg).2

theorem IsTemperature.mul (h : IsTemperature t) (hx : IsFraction x) : IsTemperature (t * x) := by
  have hfinite : Float.isFinite x = true :=
    isFinite_of_between Rounded.isFinite_zero Rounded.isFinite_one hx.nonneg hx.le_one
  refine ⟨isFinite_mul_fraction h.finite hfinite hx.nonneg hx.le_one, ?_⟩
  exact onSide_positive_iff.mp ((onSide_positive_iff.mpr h.nonneg).mul
    (onSide_positive_iff.mpr hx.nonneg) h.finite hfinite)

end

/-! ## One step -/

namespace Annealing

/-- The spread that Huang cooling divides by after moves of these energies. -/
def Config.spread? {α : Type} [Scalar α] (config : Config α) (energies : List α) : Option α :=
  (Cooler.ofMoves config.cooling config.alpha config.huangLambda [] energies).energySpread?

/-- A Huang step that divides infinity by infinity. -/
structure Config.Overflows {α : Type} [Scalar α] (config : Config α) (energies : List α)
    (temperature : α) : Prop where
  huang : config.cooling = .huang
  product : Scalar.isFinite (-temperature * config.huangLambda) = false
  spread : config.spread? energies = some Scalar.infinity

namespace Config

variable {f : Elementary} {config : Config (Rounded f)} {t : Rounded f}

/-- Accepted settings have a temperature to start from and fractions to multiply it by. -/
structure Accepted (config : Config (Rounded f)) : Prop where
  initial : IsTemperature config.initialTemperature
  alpha_pos : 0.0 < config.alpha
  alpha_lt : config.alpha < 1.0
  alpha : IsFraction config.alpha
  fraction : IsFraction config.reheatFraction
  lambda_pos : 0.0 < config.huangLambda
  lambda_finite : Scalar.isFinite config.huangLambda = true

theorem accepted_of_validate (hvalid : config.validate = .ok ()) : config.Accepted := by
  obtain ⟨⟨hinitial, hfinal, halpha, hfraction, hlambda⟩, hfinalPos, hfalls, halphaPos, halphaLt,
    hfractionPos, hfractionLe, hlambdaPos⟩ := validate_eq_ok_iff.mp hvalid
  have hzero : Scalar.isFinite (0.0 : Rounded f) = true := Rounded.isFinite_zero
  have hone : Scalar.isFinite (1.0 : Rounded f) = true := Rounded.isFinite_one
  have hpositive {x : Rounded f} (hx : Scalar.isFinite x = true) (h : ¬ x ≤ 0.0) : 0.0 < x :=
    (FiniteOrder.lt_iff_not_le hzero hx).mpr h
  have hstart : config.finalTemperature < config.initialTemperature :=
    (FiniteOrder.lt_iff_not_le hfinal hinitial).mpr hfalls
  have halphaLt : config.alpha < 1.0 := (FiniteOrder.lt_iff_not_le halpha hone).mpr halphaLt
  constructor
  case initial =>
    refine ⟨hinitial, ?_⟩
    exact FiniteOrder.le_trans hzero hfinal hinitial
      (FiniteOrder.le_of_lt hzero hfinal (hpositive hfinal hfinalPos))
      (FiniteOrder.le_of_lt hfinal hinitial hstart)
  case alpha_pos => exact hpositive halpha halphaPos
  case alpha_lt => exact halphaLt
  case alpha =>
    exact ⟨FiniteOrder.le_of_lt hzero halpha (hpositive halpha halphaPos),
      FiniteOrder.le_of_lt halpha hone halphaLt⟩
  case fraction =>
    exact ⟨FiniteOrder.le_of_lt hzero hfraction (hpositive hfraction hfractionPos),
      (FiniteOrder.not_lt hone hfraction).mp hfractionLe⟩
  case lambda_pos => exact hpositive hlambda hlambdaPos
  case lambda_finite => exact hlambda

/-- A share that is not negative leads to a positive finite exponent. -/
theorem exponent_bounds {ratio : Float} (h : OnSide .positive ratio) :
    let e := Scalar.clamp (ratio / Cooler.targetAcceptance) Cooler.minExponent Cooler.maxExponent
    0.0 < e ∧ e.isFinite := by
  intro e
  have htarget : (0.0 : Float) < Cooler.targetAcceptance := by decide
  have hbounds : (Cooler.minExponent : Float) ≤ Cooler.maxExponent := by decide
  have hleast : (0.0 : Float) < Cooler.minExponent := by decide
  obtain ⟨hlow, hhigh⟩ := clamp_mem (h.div htarget (Or.inr (by rfl))).defined hbounds
  have hfinite : e.isFinite := isFinite_of_between (by rfl) (by rfl) hlow hhigh
  exact ⟨FiniteOrder.lt_of_lt_of_le (by rfl) (by rfl) hfinite hleast hlow, hfinite⟩

theorem isFraction_power (hf : f.Contracting) (h : config.Accepted) {c : Cooler (Rounded f)}
    (hwindow : c.outcomes.length < 2 ^ 64) (haccepted : c.accepted < 2 ^ 64) :
    IsFraction (Scalar.pow config.alpha (Scalar.clamp
      (c.acceptanceRatio / Cooler.targetAcceptance) Cooler.minExponent Cooler.maxExponent)) := by
  have hratio : OnSide .positive c.acceptanceRatio := by
    unfold Cooler.acceptanceRatio Scalar.fraction
    split
    next => exact onSide_zero .positive .positive
    next hsome => exact (onSide_quotient haccepted (Nat.pos_of_ne_zero hsome) hwindow).1
  obtain ⟨hpos, hfinite⟩ := exponent_bounds hratio
  obtain ⟨hlow, hhigh⟩ := hf.pow_fraction h.alpha_pos h.alpha_lt hpos hfinite
  exact ⟨hlow, hhigh⟩

/-- A defined quotient of the product by the spread is not positive. -/
theorem isFraction_decay (hf : f.Contracting) (h : config.Accepted) (ht : IsTemperature t)
    {sigma : Rounded f} (hsigma : 0.0 < sigma)
    (hfinite : Scalar.isFinite (-t * config.huangLambda) = true ∨ Scalar.isFinite sigma = true) :
    IsFraction (Scalar.exp (-t * config.huangLambda / sigma)) := by
  have hproduct : OnSide .negative (-t * config.huangLambda) :=
    (onSide_positive_iff.mpr ht.nonneg).neg.mul (onSide_of_pos h.lambda_pos)
      (isFinite_neg ht.finite) h.lambda_finite
  have hexponent := onSide_negative_iff.mp (hproduct.div hsigma hfinite)
  obtain ⟨hlow, hhigh⟩ := hf.exp_nonpos hexponent
  exact ⟨hlow, hhigh⟩

theorem isNaN_decay (hf : f.Contracting)
    (hproduct : Scalar.isFinite (-t * config.huangLambda) = false) :
    Scalar.isNaN (Scalar.exp (-t * config.huangLambda / Scalar.infinity)) = true := by
  have hinfinite : ¬ Float.isFinite (-t * config.huangLambda) = true := by
    rw [Bool.not_eq_true]
    exact hproduct
  exact hf.exp_isNaN (isNaN_div_infinity hinfinite)

/-- After any moves the next temperature is one again, unless Huang cooling overflows. -/
theorem nextTemperature_cases (hf : f.Contracting) (h : config.Accepted) (ht : IsTemperature t)
    (outcomes : List Bool) (energies : List (Rounded f)) :
    let next := (Cooler.ofMoves config.cooling config.alpha config.huangLambda outcomes
      energies).nextTemperature t
    (config.Overflows energies t ∧ Scalar.isNaN next = true) ∨
      (¬ config.Overflows energies t ∧ IsTemperature next) := by
  have hwindow : (outcomes.rtake Cooler.window).length ≤ Cooler.window := by
    rw [length_rtake]
    exact Nat.min_le_left _ _
  have hsmall : Cooler.window < 2 ^ 64 := by decide
  -- what the next temperature depends on
  obtain ⟨c, hc⟩ : ∃ c, c = Cooler.ofMoves config.cooling config.alpha config.huangLambda outcomes
    energies := ⟨_, rfl⟩
  have hschedule : c.schedule = config.cooling := by rw [hc]; rfl
  have halpha : c.alpha = config.alpha := by rw [hc]; rfl
  have hlambda : c.lambda = config.huangLambda := by rw [hc]; rfl
  have hspread : c.energySpread? = config.spread? energies := by rw [hc]; rfl
  have hpower : IsFraction (Scalar.pow config.alpha (Scalar.clamp
      (c.acceptanceRatio / Cooler.targetAcceptance) Cooler.minExponent Cooler.maxExponent)) := by
    rw [hc]
    exact isFraction_power hf h (hwindow.trans_lt hsmall)
      ((List.count_le_length.trans hwindow).trans_lt hsmall)
  rw [← hc]
  clear hc
  intro next
  show (config.Overflows energies t ∧ Scalar.isNaN (c.nextTemperature t) = true) ∨
    (¬ config.Overflows energies t ∧ IsTemperature (c.nextTemperature t))
  unfold Cooler.nextTemperature
  rw [hschedule, hspread, halpha, hlambda]
  cases hcooling : config.cooling with
  | geometric =>
    dsimp only
    exact Or.inr ⟨fun hover => (nomatch hcooling.symm.trans hover.huang), ht.mul h.alpha⟩
  | lamDelosme =>
    dsimp only
    refine Or.inr ⟨fun hover => (nomatch hcooling.symm.trans hover.huang), ?_⟩
    split
    · exact ht.mul h.alpha
    · exact ht.mul hpower
  | huang =>
    -- the exponent is undefined if both of its parts are infinite, else it is not positive
    dsimp only
    cases hsigma : config.spread? energies with
    | none =>
      dsimp only
      exact Or.inr ⟨fun hover => (nomatch hsigma.symm.trans hover.spread), ht.mul h.alpha⟩
    | some sigma =>
      dsimp only
      split
      next hpos =>
        by_cases hover : config.Overflows energies t
        · have hinfinite : sigma = Scalar.infinity :=
            Option.some.inj (hsigma.symm.trans hover.spread)
          rw [hinfinite]
          exact Or.inl ⟨hover, isNaN_mul (isNaN_decay hf hover.product)⟩
        · refine Or.inr ⟨hover, ht.mul (isFraction_decay hf h ht hpos ?_)⟩
          by_contra hneither
          rw [not_or, Bool.not_eq_true] at hneither
          have hinfinite : sigma = Scalar.infinity :=
            (onSide_of_pos hpos).eq_infinite hneither.2
          exact hover ⟨hcooling, hneither.1, by rw [hsigma, hinfinite]⟩
      next hpos =>
        refine Or.inr ⟨?_, ht.mul h.alpha⟩
        intro hover
        cases hsigma.symm.trans hover.spread
        exact hpos ((zero_lt_infinite_iff .positive).mpr rfl)

/-- What is undefined stays so. -/
theorem isNaN_nextTemperature (ht : Scalar.isNaN t = true) (c : Cooler (Rounded f)) :
    Scalar.isNaN (c.nextTemperature t) = true := by
  have hproduct (x : Rounded f) : Scalar.isNaN (t * x) = true := isNaN_mul_left ht x
  unfold Cooler.nextTemperature
  cases c.schedule with
  | geometric => exact hproduct _
  | lamDelosme =>
    dsimp only
    split
    · exact hproduct _
    · exact hproduct _
  | huang =>
    dsimp only
    split
    · split
      · exact hproduct _
      · exact hproduct _
    · exact hproduct _

/-! ## All steps -/

/-- A temperature of the recurrence is undefined if Huang cooling overflowed at an earlier one and
there was no reheat since. -/
theorem temperatureAt_cases (hf : f.Contracting) (h : config.Accepted) (outcomes : List Bool)
    (energies : List (Rounded f)) (k : Nat) :
    let temperature := config.temperatureAt outcomes energies
    let overflowed := ∃ j < k, config.Overflows (energies.take (j + 1)) (temperature j) ∧
      ∀ i, j < i → i ≤ k → ¬ config.ReheatsAfter i
    (overflowed ∧ Scalar.isNaN (temperature k) = true) ∨
      (¬ overflowed ∧ IsTemperature (temperature k)) := by
  intro temperature overflowed
  -- by induction on the moves: an overflow counts until a reheat, and none counts before the first
  induction k with
  | zero =>
    refine Or.inr ⟨?_, h.initial⟩
    rintro ⟨j, hj, -⟩
    exact absurd hj (Nat.not_lt_zero j)
  | succ k ih =>
    by_cases hreheat : config.ReheatsAfter (k + 1)
    · refine Or.inr ⟨?_, ?_⟩
      · rintro ⟨j, hj, -, hnone⟩
        exact hnone (k + 1) hj le_rfl hreheat
      · show IsTemperature (config.temperatureAt outcomes energies (k + 1))
        rw [temperatureAt, if_pos hreheat]
        exact h.initial.mul h.fraction
    · have hnext : temperature (k + 1) = (Cooler.ofMoves config.cooling config.alpha
          config.huangLambda (outcomes.take (k + 1)) (energies.take (k + 1))).nextTemperature
            (temperature k) := if_neg hreheat
      rw [hnext]
      rcases ih with ⟨⟨j, hj, hover, hnone⟩, hundefined⟩ | ⟨hno, htemperature⟩
      · -- undefined before, and no reheat now
        refine Or.inl ⟨⟨j, Nat.lt_succ_of_lt hj, hover, ?_⟩, isNaN_nextTemperature hundefined _⟩
        intro i hji hik
        rcases Nat.lt_or_eq_of_le hik with hearlier | rfl
        · exact hnone i hji (Nat.le_of_lt_succ hearlier)
        · exact hreheat
      · rcases nextTemperature_cases hf h htemperature (outcomes.take (k + 1))
          (energies.take (k + 1)) with ⟨hover, hundefined⟩ | ⟨hsafe, hdefined⟩
        · refine Or.inl ⟨⟨k, Nat.lt_succ_self k, hover, ?_⟩, hundefined⟩
          intro i hki hik
          rw [Nat.le_antisymm hik hki]
          exact hreheat
        · refine Or.inr ⟨?_, hdefined⟩
          rintro ⟨j, hj, hover, hnone⟩
          rcases Nat.lt_or_eq_of_le (Nat.le_of_lt_succ hj) with hearlier | rfl
          · exact hno ⟨j, hearlier, hover, fun i hji hik => hnone i hji (Nat.le_succ_of_le hik)⟩
          · exact hsafe hover

end Config

/-! ## Result -/

section

variable {f : Elementary}

/-- All temperatures of a run are finite and not negative, except for those from an overflow of Huang
cooling up to the next reheat: these are undefined, and not below the final temperature. -/
theorem undefined_temperatures (hf : f.Contracting) (problem : Problem (Rounded f))
    (config : Config (Rounded f)) (watch : Watch) (initial : State (Rounded f)) :
    (problem.Total → config.validate = .ok () → initial ≠ [] →
      ∃ report, run problem config watch initial = .ok report) ∧
    ∀ report, run problem config watch initial = .ok report →
      let r := report.result
      r.temperatures.length = r.iterations + 1 ∧
      ∀ k t, r.temperatures[k]? = some t →
        (Scalar.isNaN t = true ∨ IsTemperature t) ∧
        (Scalar.isNaN t = true ↔ ∃ j < k, ∃ u, r.temperatures[j]? = some u ∧
          config.Overflows (r.energyHistory.toList.take (j + 1)) u ∧
          ∀ i, j < i → i ≤ k → ¬ config.ReheatsAfter i) ∧
        (Scalar.isNaN t = true → ¬ t < config.finalTemperature) := by
  refine ⟨run_total, ?_⟩
  intro report hrun r
  have haccepted : config.Accepted := Config.accepted_of_validate (run_eq_ok.mp hrun).1
  obtain ⟨hlength, -, outcomes, hentry⟩ := temperatures_of_run hrun
  refine ⟨hlength, ?_⟩
  intro k t ht
  -- the temperatures before this one are those of the recurrence
  have hbefore {j : Nat} (hj : j < k) : ∃ u, r.temperatures[j]? = some u ∧
      config.temperatureAt outcomes r.energyHistory.toList j = u := by
    have hlt : j < r.temperatures.length := hj.trans (List.getElem?_eq_some_iff.mp ht).1
    have hget : r.temperatures[j]? = some r.temperatures[j] := List.getElem?_eq_getElem hlt
    exact ⟨_, hget, hentry hget⟩
  have hoverflowed : (∃ j < k, ∃ u, r.temperatures[j]? = some u ∧
      config.Overflows (r.energyHistory.toList.take (j + 1)) u ∧
      ∀ i, j < i → i ≤ k → ¬ config.ReheatsAfter i) ↔
        ∃ j < k, config.Overflows (r.energyHistory.toList.take (j + 1))
          (config.temperatureAt outcomes r.energyHistory.toList j) ∧
          ∀ i, j < i → i ≤ k → ¬ config.ReheatsAfter i := by
    constructor
    · rintro ⟨j, hj, u, hu, hover, hnone⟩
      exact ⟨j, hj, (hentry hu).symm ▸ hover, hnone⟩
    · rintro ⟨j, hj, hover, hnone⟩
      obtain ⟨u, hu, hat⟩ := hbefore hj
      exact ⟨j, hj, u, hu, hat ▸ hover, hnone⟩
  rw [hoverflowed]
  have hcases := Config.temperatureAt_cases hf haccepted outcomes r.energyHistory.toList k
  dsimp only at hcases
  rw [hentry ht] at hcases
  refine ⟨?_, ⟨?_, ?_⟩, ?_⟩
  · exact hcases.imp And.right And.right
  · intro hundefined
    rcases hcases with ⟨hover, -⟩ | ⟨-, htemperature⟩
    · exact hover
    · exact absurd hundefined (Bool.not_eq_true _ ▸ htemperature.defined)
  · intro hover
    rcases hcases with ⟨-, hundefined⟩ | ⟨hno, -⟩
    · exact hundefined
    · exact absurd hover hno
  · intro hundefined
    exact (not_lt_of_isNaN hundefined config.finalTemperature).2

end

/-- Elementary functions that know zero and one only. -/
def coarse : Elementary where
  exp x := if x.isNaN then x else if x < 0.0 then 0.0 else 1.0
  ln _ := 0.0
  pow _ _ := 1.0

theorem coarse_contracting : coarse.Contracting where
  exp_isNaN {x} hx := by
    show (if x.isNaN then x else _ : Float).isNaN
    rw [if_pos hx]
    exact hx
  exp_nonpos {x} hx := by
    show 0.0 ≤ (if x.isNaN then x else if x < 0.0 then 0.0 else 1.0 : Float) ∧
      (if x.isNaN then x else if x < 0.0 then 0.0 else 1.0 : Float) ≤ 1.0
    rw [if_neg (defined_of_le hx).1]
    split
    · decide
    · decide
  pow_fraction _ _ _ _ := by
    show (0.0 : Float) ≤ 1.0 ∧ (1.0 : Float) ≤ 1.0
    decide

/-- Every move of this slope goes down by a large step. -/
def steep : Problem (Rounded coarse) where
  energy := Landscape.linear
  propose := Walk.shorten

theorem steep_total : steep.Total where
  energy _ := ⟨_, rfl⟩
  propose _ _ := ⟨_, rfl⟩

def twoHuangMoves : Config (Rounded coarse) :=
  { Config.standard with
    initialTemperature := Float.ofBits 0x4630000000000000
    finalTemperature := 1.0
    cooling := .huang
    alpha := 0.5
    maxIterations := 2
    huangLambda := Float.ofBits 0x7e70000000000000 }

/-- The coordinates are `2 ^ 600`. -/
def steepStart : State (Rounded coarse) :=
  List.replicate 3 (Float.ofBits 0x6570000000000000)

/-- The second of two moves down the slope is followed by an overflow: the temperature `2 ^ 99` times
`2 ^ 1000` is infinite, and so is the spread of the energies `2 ^ 601` and `2 ^ 600`. -/
theorem undefined_temperatures_steep :
    coarse.Contracting ∧ steep.Total ∧ twoHuangMoves.validate = .ok () ∧
    ∃ report, run steep twoHuangMoves .never steepStart = .ok report ∧
      report.result.energyHistory.toList.map Scalar.isFinite = [true, true] ∧
      report.result.temperatures.map Scalar.isNaN = [false, false, true] ∧
      ∃ j < 2, ∃ u, report.result.temperatures[j]? = some u ∧
        twoHuangMoves.Overflows (report.result.energyHistory.toList.take (j + 1)) u := by
  have hvalid : twoHuangMoves.validate = .ok () := by rfl
  have hpromise := undefined_temperatures coarse_contracting steep twoHuangMoves .never steepStart
  obtain ⟨report, hreport⟩ := hpromise.1 steep_total hvalid (List.cons_ne_nil _ _)
  have hevaluated : (run steep twoHuangMoves .never steepStart).toOption.map (fun report =>
      (report.result.energyHistory.toList.map Scalar.isFinite,
        report.result.temperatures.map Scalar.isNaN)) =
          some ([true, true], [false, false, true]) := by
    decide +kernel
  rw [hreport] at hevaluated
  have hflags := Option.some.inj hevaluated
  have hfinite : report.result.energyHistory.toList.map Scalar.isFinite = [true, true] :=
    congrArg Prod.fst hflags
  have hnan : report.result.temperatures.map Scalar.isNaN = [false, false, true] :=
    congrArg Prod.snd hflags
  have hlast : (report.result.temperatures.map Scalar.isNaN)[2]? = some true := by
    rw [hnan]
    rfl
  rw [List.getElem?_map, Option.map_eq_some_iff] at hlast
  obtain ⟨t, ht, hundefined⟩ := hlast
  obtain ⟨j, hj, u, hu, hover, -⟩ := ((hpromise.2 report hreport).2 2 t ht).2.1.mp hundefined
  exact ⟨coarse_contracting, steep_total, hvalid, report, hreport, hfinite, hnan, j, hj, u, hu,
    hover⟩

end Annealing

end ThermalSearch
