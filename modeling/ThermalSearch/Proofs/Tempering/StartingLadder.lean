import ThermalSearch.Proofs.Scalar.Power
import ThermalSearch.Proofs.Settings
import ThermalSearch.Proofs.Tempering.Adaptation

/-!
# The ladder that a run starts on

A rung of a ladder in equal ratios is computed from the quotient of the ends, the fraction of the way,
the power and a product, each of them rounded. The number of rungs and both ends are exact all the
same. What lies between the ends is not what it should be for all temperatures that are accepted: where
the quotient of the ends is beyond the range of floats, the inner rungs are infinite.

A ladder is increasing when neighbours are more than rounding apart (`Spread`). This is seen in
logarithms, where the formula is a straight line and the relative errors of rounding are distances from
it: the four of them together are small against the distance of neighbours.

The powers are those of any function that computes powers (`Binary64.IsPower`).
-/

namespace ThermalSearch

namespace Ladder

open Binary64

/-- The ladder in equal ratios, with powers computed by `pow`. -/
def geometricBy (pow : Float → Float → Float) (lowest highest : Float) (n : Nat) : List Float :=
  @geometric Float (withPow pow) lowest highest n

/-- The ladder of the program is computed with the powers of the machine. -/
theorem geometricBy_pow (lowest highest : Float) (n : Nat) :
    geometricBy Float.pow lowest highest n = geometric lowest highest n :=
  rfl

def rungBy (pow : Float → Float → Float) (lowest highest : Float) (n i : Nat) : Float :=
  @geometricRung Float (withPow pow) lowest highest n i

/-- The part of the way up the ladder at which a rung stands. -/
def exponent (n i : Nat) : Float := Scalar.ofNat i / Scalar.ofNat (n - 1)

variable {pow : Float → Float → Float} {lowest highest : Float} {n i : Nat}

theorem rungBy_of_ne (h : i + 1 ≠ n) :
    rungBy pow lowest highest n i = lowest * pow (highest / lowest) (exponent n i) :=
  if_neg h

theorem rungBy_last (h : i + 1 = n) : rungBy pow lowest highest n i = highest :=
  if_pos h

theorem getElem?_geometricBy (hn : 2 ≤ n) (i : Nat) : (geometricBy pow lowest highest n)[i]? =
    if i < n then some (rungBy pow lowest highest n i) else none := by
  have hone : n ≠ 1 := by omega
  unfold geometricBy geometric
  rw [if_neg hone, List.getElem?_map]
  by_cases hi : i < n
  · rw [List.getElem?_range hi, if_pos hi]
    rfl
  · rw [if_neg hi, List.getElem?_eq_none (by rw [List.length_range]; omega)]
    rfl

theorem length_geometricBy (hn : 2 ≤ n) : (geometricBy pow lowest highest n).length = n := by
  have hone : n ≠ 1 := by omega
  unfold geometricBy geometric
  rw [if_neg hone, List.length_map, List.length_range]

/-- A ladder is increasing when each of its rungs is below the next one. -/
theorem isIncreasing_geometricBy (hn : 2 ≤ n) :
    isIncreasing (geometricBy pow lowest highest n) = true ↔
      ∀ i, i + 1 < n → rungBy pow lowest highest n i < rungBy pow lowest highest n (i + 1) := by
  have hrung : ∀ (i : Nat) (h : i < (geometricBy pow lowest highest n).length),
      (geometricBy pow lowest highest n)[i] = rungBy pow lowest highest n i := by
    intro i h
    have hi : i < n := by rwa [length_geometricBy hn] at h
    rw [List.getElem_eq_iff, getElem?_geometricBy hn, if_pos hi]
  rw [isIncreasing_iff, List.isChain_iff_getElem]
  simp only [hrung, length_geometricBy hn]

theorem head?_geometricBy (hn : 2 ≤ n) :
    (geometricBy pow lowest highest n).head? = some (rungBy pow lowest highest n 0) := by
  rw [List.head?_eq_getElem?, getElem?_geometricBy hn, if_pos (by omega)]

theorem getLast?_geometricBy (hn : 2 ≤ n) :
    (geometricBy pow lowest highest n).getLast? = some highest := by
  rw [List.getLast?_eq_getElem?, length_geometricBy hn, getElem?_geometricBy hn,
    if_pos (by omega), rungBy_last (by omega)]

/-! ## Ends -/

/-- Two temperatures between which there are others. -/
structure IsRange (lowest highest : Float) : Prop where
  lowest_finite : lowest.isFinite
  highest_finite : highest.isFinite
  pos : 0 < value lowest
  lt : value lowest < value highest

theorem isRange_of_validate {config : Tempering.Config Float} (h : config.validate = .ok ()) :
    IsRange config.minTemperature config.maxTemperature := by
  obtain ⟨⟨hlowest, hhighest⟩, hpos, hlt⟩ := Tempering.Config.validate_eq_ok_iff.mp h
  have hpos' : (0.0 : Float) < config.minTemperature :=
    (FiniteOrder.lt_iff_not_le (by rfl) hlowest).mpr hpos
  have hlt' : config.minTemperature < config.maxTemperature :=
    (FiniteOrder.lt_iff_not_le hlowest hhighest).mpr hlt
  rw [lt_iff_value_lt (by rfl) hlowest, value_zero] at hpos'
  exact ⟨hlowest, hhighest, hpos', (lt_iff_value_lt hlowest hhighest).mp hlt'⟩

theorem IsRange.highest_pos (h : IsRange lowest highest) : 0 < value highest :=
  h.pos.trans h.lt

theorem IsRange.lowest_lt (h : IsRange lowest highest) : lowest < highest :=
  (lt_iff_value_lt h.lowest_finite h.highest_finite).mpr h.lt

/-- The lowest rung is the lowest temperature, for its power is one. -/
theorem rungBy_zero (hpow : IsPower pow) (h : IsRange lowest highest) (hn : 2 ≤ n)
    (hword : n ≤ 2 ^ 64) : rungBy pow lowest highest n 0 = lowest := by
  have hcount := near_count (n := n - 1) (by omega) (by omega)
  have hzero : (Scalar.ofNat 0 : Float) = 0.0 := by rfl
  have hexponent : exponent n 0 = 0.0 := by
    unfold exponent
    rw [hzero, zero_div_of_pos hcount.finite hcount.pos]
  rw [rungBy_of_ne (by omega), hexponent, hpow.zero, mul_one_of_pos h.lowest_finite h.pos]

/-! ## Exponents -/

/-- The exponent of an inner rung is a quotient in the normal range. -/
theorem near_exponent (hi : 0 < i) (hin : i + 1 < n) (hword : n ≤ 2 ^ 64) :
    Near (2 ^ (-52 : ℤ)) (exponent n i)
      (value (Scalar.ofNat i) / value (Scalar.ofNat (n - 1))) := by
  have hi' : (1 : ℝ) ≤ i := by exact_mod_cast hi
  have hn' : (1 : ℝ) ≤ (n - 1 : Nat) := by exact_mod_cast (by omega : 1 ≤ n - 1)
  have hlt : (i : ℝ) < (n - 1 : Nat) := by exact_mod_cast (by omega : i < n - 1)
  have hle : ((n - 1 : Nat) : ℝ) ≤ 2 ^ 64 := by exact_mod_cast (by omega : n - 1 ≤ 2 ^ 64)
  have hnear := near_count hi (by omega)
  have hnear' := near_count (n := n - 1) (by omega) (by omega)
  obtain ⟨hlow, hhigh⟩ := hnear.bounds (by linarith) (by norm_num)
  obtain ⟨hlow', hhigh'⟩ := hnear'.bounds (by linarith) (by norm_num)
  have hnormal : 2 * leastNormal ≤ value (Scalar.ofNat i) / value (Scalar.ofNat (n - 1)) := by
    refine (two_mul_leastNormal_le (k := -66) (by norm_num)).trans ?_
    rw [le_div_iff₀ hnear'.pos]
    calc (2 : ℝ) ^ (-66 : ℤ) * value (Scalar.ofNat (n - 1)) ≤ 2 ^ (-66 : ℤ) * (2 * 2 ^ 64) := by
          gcongr
          linarith
      _ = 1 / 2 := by norm_num
      _ ≤ value (Scalar.ofNat i) := by linarith
  rcases near_div hnear.toNormal hnear'.toNormal hnormal with hquotient | ⟨-, hover⟩
  · exact hquotient
  · exfalso
    have hsmall : value (Scalar.ofNat i) / value (Scalar.ofNat (n - 1)) ≤ 2 ^ 64 := by
      rw [div_le_iff₀ hnear'.pos]
      linarith
    exact absurd (hover.trans hsmall) lt_greatest.not_ge

/-- Two counts and their quotient are rounded. -/
theorem log_exponent (hi : 0 < i) (hin : i + 1 < n) (hword : n ≤ 2 ^ 64) :
    |Real.log (value (exponent n i)) - Real.log (i / (n - 1 : Nat))| ≤ 3 * 2 ^ (-51 : ℤ) := by
  have hi' : (0 : ℝ) < i := by exact_mod_cast hi
  have hn' : (0 : ℝ) < (n - 1 : Nat) := by exact_mod_cast (by omega : 0 < n - 1)
  have hnear := near_count hi (by omega)
  have hnear' := near_count (n := n - 1) (by omega) (by omega)
  have herror := (near_exponent hi hin hword).log_error (div_pos hnear.pos hnear'.pos) (by norm_num)
  have herror₁ := hnear.log_error hi' (by norm_num)
  have herror₂ := hnear'.log_error hn' (by norm_num)
  have htwo : (2 : ℝ) * 2 ^ (-52 : ℤ) = 2 ^ (-51 : ℤ) := by norm_num
  rw [htwo] at herror herror₁ herror₂
  rw [Real.log_div hnear.pos.ne' hnear'.pos.ne'] at herror
  rw [Real.log_div hi'.ne' hn'.ne']
  rw [abs_le] at herror herror₁ herror₂ ⊢
  constructor <;> linarith

/-! ## A quotient out of range -/

/-- All inner rungs are infinite when the quotient of the temperatures is. -/
theorem rungBy_infinite (hpow : IsPower pow) (h : IsRange lowest highest)
    (hquotient : ¬ (highest / lowest).isFinite) (hi : 0 < i) (hin : i + 1 < n)
    (hword : n ≤ 2 ^ 64) : rungBy pow lowest highest n i = Scalar.infinity := by
  have hnear := near_exponent hi hin hword
  have hpos : 0.0 < exponent n i := by
    rw [lt_iff_value_lt (by rfl) hnear.finite, value_zero]
    exact hnear.pos
  rw [rungBy_of_ne (by omega),
    div_eq_infinity h.highest_finite h.highest_pos h.lowest_finite h.pos hquotient,
    hpow.infinity _ hpos, mul_infinity_of_pos h.lowest_finite h.pos]

/-- The highest temperature is not above an infinite one. -/
theorem not_isIncreasing (hpow : IsPower pow) (h : IsRange lowest highest)
    (hquotient : ¬ (highest / lowest).isFinite) (hn : 2 < n) (hword : n ≤ 2 ^ 64) :
    isIncreasing (geometricBy pow lowest highest n) = false := by
  rw [Bool.eq_false_iff]
  intro hincreasing
  have hlast := (isIncreasing_geometricBy (by omega)).mp hincreasing (n - 2) (by omega)
  rw [rungBy_infinite hpow h hquotient (by omega) (by omega) hword,
    rungBy_last (by omega)] at hlast
  exact not_infinity_lt h.highest_finite hlast

/-! ## Rungs that are far enough apart -/

/-- The quotient of the temperatures is in the range of floats, and neighbours on the ladder are more
than rounding apart. -/
structure Spread (lowest highest : Float) (n : Nat) : Prop extends IsRange lowest highest where
  lowest_normal : leastNormal ≤ value lowest
  quotient_finite : (highest / lowest).isFinite
  ratio : (1 + 2 ^ (-32 : ℤ) : ℝ) ^ (n - 1) ≤ value highest / value lowest

/-- The distance of neighbours, in logarithms. -/
noncomputable def logStep (lowest highest : Float) (n : Nat) : ℝ :=
  Real.log (value highest / value lowest) / (n - 1 : Nat)

namespace Spread

theorem normal_lowest (h : Spread lowest highest n) : Normal lowest :=
  ⟨h.lowest_finite, h.lowest_normal⟩

theorem normal_highest (h : Spread lowest highest n) : Normal highest :=
  ⟨h.highest_finite, h.lowest_normal.trans h.lt.le⟩

theorem one_lt_ratio (h : Spread lowest highest n) : 1 < value highest / value lowest := by
  rw [lt_div_iff₀ h.pos, one_mul]
  exact h.lt

theorem near_quotient (h : Spread lowest highest n) :
    Near (2 ^ (-52 : ℤ)) (highest / lowest) (value highest / value lowest) := by
  have hnormal : 2 * leastNormal ≤ value highest / value lowest := by
    refine (two_mul_leastNormal_le (k := 0) (by norm_num)).trans ?_
    rw [zpow_zero]
    exact h.one_lt_ratio.le
  rcases near_div h.normal_highest h.normal_lowest hnormal with hnear | ⟨hinfinite, -⟩
  · exact hnear
  · have hfinite := h.quotient_finite
    rw [hinfinite] at hfinite
    exact absurd hfinite (by decide)

/-- The logarithms of the quotient, as it is and as it is computed. -/
theorem log_quotient (h : Spread lowest highest n) :
    |Real.log (value (highest / lowest)) - Real.log (value highest / value lowest)| ≤
      2 ^ (-51 : ℤ) := by
  have herror := h.near_quotient.log_error (zero_lt_one.trans h.one_lt_ratio) (by norm_num)
  have htwo : (2 : ℝ) * 2 ^ (-52 : ℤ) = 2 ^ (-51 : ℤ) := by norm_num
  rwa [htwo] at herror

theorem log_quotient_le (h : Spread lowest highest n) :
    Real.log (value (highest / lowest)) ≤ 710 := by
  have hnear := h.near_quotient
  have hlog := Real.log_le_log hnear.pos (hnear.le_greatest.trans greatest_le)
  have htwo := Real.log_two_lt_d9
  rw [Real.log_zpow] at hlog
  push_cast at hlog
  linarith

theorem logStep_mul (h : Spread lowest highest n) (hn : 2 ≤ n) :
    ((n - 1 : Nat) : ℝ) * logStep lowest highest n =
      Real.log (value highest) - Real.log (value lowest) := by
  have hn' : ((n - 1 : Nat) : ℝ) ≠ 0 := by exact_mod_cast (by omega : n - 1 ≠ 0)
  rw [logStep, mul_div_cancel₀ _ hn', Real.log_div h.highest_pos.ne' h.pos.ne']

theorem le_logStep (h : Spread lowest highest n) (hn : 2 ≤ n) :
    2 ^ (-33 : ℤ) ≤ logStep lowest highest n := by
  have hn' : (0 : ℝ) < (n - 1 : Nat) := by exact_mod_cast (by omega : 0 < n - 1)
  have hratio : (2 : ℝ) ^ (-33 : ℤ) ≤ Real.log (1 + 2 ^ (-32 : ℤ)) := by
    refine le_trans ?_ (Real.one_sub_inv_le_log_of_pos (by norm_num))
    norm_num
  have hlog := Real.log_le_log (by positivity) h.ratio
  rw [Real.log_pow] at hlog
  rw [logStep, le_div_iff₀ hn', mul_comm]
  exact le_trans (by gcongr) hlog

theorem one_le_quotient (h : Spread lowest highest n) (hn : 2 ≤ n) :
    1 ≤ value (highest / lowest) := by
  have hn' : (1 : ℝ) ≤ (n - 1 : Nat) := by exact_mod_cast (by omega : 1 ≤ n - 1)
  have hstep := h.le_logStep hn
  have herror := (abs_le.mp h.log_quotient).1
  have hwhole : 1 * 2 ^ (-33 : ℤ) ≤ ((n - 1 : Nat) : ℝ) * logStep lowest highest n := by gcongr
  rw [h.logStep_mul hn, ← Real.log_div h.highest_pos.ne' h.pos.ne'] at hwhole
  rw [← Real.log_nonneg_iff h.near_quotient.pos]
  norm_num at hwhole herror
  linarith

/-- There is no room for more rungs than can be counted. -/
theorem length_le (h : Spread lowest highest n) (hn : 2 ≤ n) : ((n - 1 : Nat) : ℝ) ≤ 2 ^ 43 := by
  have hstep := h.le_logStep hn
  have hlog := h.log_quotient_le
  have herror := (abs_le.mp h.log_quotient).1
  have hwhole : ((n - 1 : Nat) : ℝ) * 2 ^ (-33 : ℤ) ≤ (n - 1 : Nat) * logStep lowest highest n := by
    gcongr
  rw [h.logStep_mul hn, ← Real.log_div h.highest_pos.ne' h.pos.ne'] at hwhole
  generalize ((n - 1 : Nat) : ℝ) = N at *
  norm_num at hwhole herror ⊢
  linarith

theorem word (h : Spread lowest highest n) (hn : 2 ≤ n) : n ≤ 2 ^ 64 := by
  have hlength : n - 1 ≤ 2 ^ 43 := by exact_mod_cast h.length_le hn
  omega

end Spread

/-- Between zero and one, logarithms are farther apart than numbers. -/
theorem abs_sub_le_log {x y : ℝ} (hx : 0 < x) (hx' : x ≤ 1) (hy : 0 < y) (hy' : y ≤ 1) :
    |y - x| ≤ |Real.log y - Real.log x| := by
  wlog hle : x ≤ y generalizing x y
  · rw [abs_sub_comm, abs_sub_comm (Real.log y)]
    exact this hy hy' hx hx' (le_of_not_ge hle)
  have hlog := Real.one_sub_inv_le_log_of_pos (div_pos hy hx)
  rw [Real.log_div hy.ne' hx.ne', inv_div] at hlog
  have hstep : y - x ≤ 1 - x / y := by
    have hfactor : 1 - x / y = (y - x) / y := by
      field_simp
    rw [hfactor, le_div_iff₀ hy]
    nlinarith
  rw [abs_of_nonneg (by linarith), abs_of_nonneg (by linarith)]
  linarith

/-- The errors of a base and of an exponent make an error of the power. -/
theorem log_power_error {y Q L x : ℝ} (hx : 0 ≤ x) (hx' : x ≤ 1) (hQ : 0 ≤ Real.log Q)
    (hQ' : Real.log Q ≤ 710) (hy : |y - x| ≤ 3 * 2 ^ (-51 : ℤ))
    (hL : |Real.log Q - L| ≤ 2 ^ (-51 : ℤ)) :
    |y * Real.log Q - x * L| ≤ 2 ^ (-39 : ℤ) := by
  have hsplit : y * Real.log Q - x * L = (y - x) * Real.log Q + x * (Real.log Q - L) := by ring
  rw [hsplit]
  calc |(y - x) * Real.log Q + x * (Real.log Q - L)|
      ≤ |y - x| * Real.log Q + x * |Real.log Q - L| := by
        refine (abs_add_le _ _).trans ?_
        rw [abs_mul, abs_mul, abs_of_nonneg hQ, abs_of_nonneg hx]
    _ ≤ 3 * 2 ^ (-51 : ℤ) * 710 + 1 * 2 ^ (-51 : ℤ) := by gcongr
    _ ≤ 2 ^ (-39 : ℤ) := by norm_num

namespace Spread

/-- The exponent of an inner rung is at most one, in spite of rounding. -/
theorem exponent_bounds (h : Spread lowest highest n) (hi : 0 < i) (hin : i + 1 < n) :
    value (exponent n i) ≤ 1 ∧
      |value (exponent n i) - i / (n - 1 : Nat)| ≤ 3 * 2 ^ (-51 : ℤ) := by
  have hword := h.word (by omega)
  have hlength := h.length_le (by omega)
  have hpos := (near_exponent hi hin hword).pos
  have herror := log_exponent hi hin hword
  have hi' : (0 : ℝ) < i := by exact_mod_cast hi
  have hin' : (i : ℝ) + 1 ≤ (n - 1 : Nat) := by exact_mod_cast (by omega : i + 1 ≤ n - 1)
  generalize ((n - 1 : Nat) : ℝ) = N at *
  have hN : 0 < N := by linarith
  have hx : 0 < i / N := div_pos hi' hN
  have hx' : i / N ≤ 1 - 2 ^ (-43 : ℤ) := by
    rw [div_le_iff₀ hN]
    norm_num at hlength ⊢
    linarith
  have hle : value (exponent n i) ≤ 1 := by
    have hlog := Real.log_le_sub_one_of_pos hx
    have hhigh := (abs_le.mp herror).2
    rw [← Real.log_nonpos_iff hpos.le]
    norm_num at hx' hhigh
    linarith
  have hone : i / N ≤ 1 := hx'.trans (by norm_num)
  exact ⟨hle, (abs_sub_le_log hx hone hpos hle).trans herror⟩

/-- The power that makes an inner rung of the lowest temperature. -/
theorem near_power (hpow : IsPower pow) (h : Spread lowest highest n) (hi : 0 < i)
    (hin : i + 1 < n) :
    Normal (pow (highest / lowest) (exponent n i)) ∧
      |Real.log (value (pow (highest / lowest) (exponent n i))) - i * logStep lowest highest n| ≤
        2 ^ (-38 : ℤ) := by
  have hquotient := h.one_le_quotient (by omega)
  have hexponent := near_exponent hi hin (h.word (by omega))
  obtain ⟨hone, hclose⟩ := h.exponent_bounds hi hin
  have hpower := hpow.near _ _ h.near_quotient.finite hexponent.finite hquotient hexponent.pos hone
  have herror := hpower.log_error (Real.rpow_pos_of_pos h.near_quotient.pos _) (by norm_num)
  rw [Real.log_rpow h.near_quotient.pos] at herror
  have hi' : (0 : ℝ) ≤ i := Nat.cast_nonneg i
  have hin' : (i : ℝ) ≤ (n - 1 : Nat) := by exact_mod_cast (by omega : i ≤ n - 1)
  have hn' := hi'.trans hin'
  have hbase := log_power_error (div_nonneg hi' hn') (div_le_one_of_le₀ hin' hn')
    (Real.log_nonneg hquotient) h.log_quotient_le hclose h.log_quotient
  rw [div_mul_eq_mul_div, mul_div_assoc, ← logStep] at hbase
  refine ⟨hpower.toNormal, (abs_sub_le _ _ _).trans ((add_le_add herror hbase).trans ?_)⟩
  norm_num

/-- An inner rung is where the formula has it, up to rounding. -/
theorem inner_rung (hpow : IsPower pow) (h : Spread lowest highest n) (hi : 0 < i)
    (hin : i + 1 < n) :
    let t := rungBy pow lowest highest n i
    Normal t ∧ |Real.log (value t) - (Real.log (value lowest) + i * logStep lowest highest n)| ≤
      2 ^ (-37 : ℤ) := by
  intro t
  have ht : t = lowest * pow (highest / lowest) (exponent n i) := rungBy_of_ne (by omega)
  obtain ⟨hnormal, hpower⟩ := h.near_power hpow hi hin
  have hstep := h.le_logStep (by omega)
  have hwhole := h.logStep_mul (by omega)
  have hi' : (1 : ℝ) ≤ i := by exact_mod_cast hi
  have hin' : (i : ℝ) + 1 ≤ (n - 1 : Nat) := by exact_mod_cast (by omega : i + 1 ≤ n - 1)
  generalize pow (highest / lowest) (exponent n i) = p at *
  generalize logStep lowest highest n = step at *
  have hstep0 : 0 ≤ step := le_trans (by norm_num) hstep
  have hfirst : 1 * step ≤ i * step := by gcongr
  have hlast : (i + 1) * step ≤ (n - 1 : Nat) * step := by gcongr
  obtain ⟨hlow, hhigh⟩ := abs_le.mp hpower
  -- the rung is between the ends, so its product stays in the normal range
  have hone : 1 ≤ value p := by
    rw [← Real.log_nonneg_iff hnormal.pos]
    norm_num at hstep hlow
    linarith
  have hproduct : leastNormal ≤ value lowest * value p :=
    h.lowest_normal.trans (le_mul_of_one_le_right h.pos.le hone)
  have hproductPos : 0 < value lowest * value p := mul_pos h.pos hnormal.pos
  have hlog := Real.log_mul h.pos.ne' hnormal.pos.ne'
  have hbelow : value lowest * value p < value highest := by
    rw [← Real.log_lt_log_iff hproductPos h.highest_pos, hlog]
    norm_num at hstep hhigh
    linarith
  rcases near_mul h.normal_lowest hnormal hproduct with hnear | ⟨-, hover⟩
  · have herror := hnear.log_error hproductPos (by norm_num)
    rw [hlog, ← ht] at herror
    refine ⟨ht ▸ hnear.toNormal, ?_⟩
    rw [abs_le] at herror ⊢
    norm_num at herror hlow hhigh ⊢
    constructor <;> linarith
  · exact absurd (hbelow.trans_le h.normal_highest.le_greatest) hover.not_gt

/-- So are the rungs at the ends. -/
theorem rung (hpow : IsPower pow) (h : Spread lowest highest n) (hn : 2 ≤ n) (hi : i < n) :
    let t := rungBy pow lowest highest n i
    Normal t ∧ |Real.log (value t) - (Real.log (value lowest) + i * logStep lowest highest n)| ≤
      2 ^ (-37 : ℤ) := by
  intro t
  rcases Nat.eq_zero_or_pos i with hzero | hpos
  · have ht : t = lowest := by
      subst hzero
      exact rungBy_zero hpow h.toIsRange hn (h.word hn)
    rw [ht, hzero, Nat.cast_zero, zero_mul, add_zero, sub_self, abs_zero]
    exact ⟨h.normal_lowest, by positivity⟩
  · by_cases hlast : i + 1 = n
    · have ht : t = highest := rungBy_last hlast
      have hi' : i = n - 1 := by omega
      rw [ht, hi', h.logStep_mul hn, add_sub_cancel, sub_self, abs_zero]
      exact ⟨h.normal_highest, by positivity⟩
    · exact h.inner_rung hpow hpos (by omega)

/-- Neighbours are farther apart than both are from their places. -/
theorem isIncreasing (hpow : IsPower pow) (h : Spread lowest highest n) (hn : 2 ≤ n) :
    isIncreasing (geometricBy pow lowest highest n) = true := by
  rw [isIncreasing_geometricBy hn]
  intro i hi
  obtain ⟨hnormal, herror⟩ := h.rung hpow hn (by omega : i < n)
  obtain ⟨hnormal', herror'⟩ := h.rung hpow hn hi
  have hstep := h.le_logStep hn
  rw [lt_iff_value_lt hnormal.finite hnormal'.finite,
    ← Real.log_lt_log_iff hnormal.pos hnormal'.pos]
  rw [abs_le] at herror herror'
  push_cast at herror'
  norm_num at hstep herror herror'
  linarith

end Spread

/-- Between two rungs there is no other one. -/
theorem isIncreasing_two (hpow : IsPower pow) (h : IsRange lowest highest) :
    isIncreasing (geometricBy pow lowest highest 2) = true := by
  rw [isIncreasing_geometricBy (le_refl 2)]
  intro i hi
  have hzero : i = 0 := by omega
  rw [hzero, rungBy_zero hpow h (le_refl 2) (by norm_num), rungBy_last rfl]
  exact h.lowest_lt

end Ladder

namespace Tempering

open Binary64 Ladder

/-- The ladder of accepted settings has a rung for every replica and starts and ends at their
temperatures. Its inner rungs are infinite when the quotient of the temperatures is out of range; when
it is in range and neighbours are more than rounding apart, the ladder is increasing and all rungs are
where the formula has them, up to rounding. -/
theorem starting_ladder {pow : Float → Float → Float} (hpow : IsPower pow) {config : Config Float}
    (h : config.validate = .ok ()) (hword : config.replicas < 2 ^ 64) :
    let n := config.effectiveReplicas
    let lowest := config.minTemperature
    let highest := config.maxTemperature
    let ladder := geometricBy pow lowest highest n
    (ladder.length = n ∧ ladder.head? = some lowest ∧ ladder.getLast? = some highest) ∧
      (n = 2 → isIncreasing ladder = true) ∧
      (¬ (highest / lowest).isFinite →
        (∀ i, 0 < i → i + 1 < n → ladder[i]? = some Scalar.infinity) ∧
          (2 < n → isIncreasing ladder = false)) ∧
      (Spread lowest highest n →
        isIncreasing ladder = true ∧
          ∀ i < n, ∃ t, ladder[i]? = some t ∧ t.isFinite ∧
            |Real.log (value t) - (Real.log (value lowest) + i * logStep lowest highest n)| ≤
              2 ^ (-37 : ℤ)) := by
  intro n lowest highest ladder
  have hrange : IsRange lowest highest := isRange_of_validate h
  have hn : 2 ≤ n := Nat.le_max_right _ _
  have hn' : n ≤ 2 ^ 64 := Nat.max_le.mpr ⟨hword.le, by decide⟩
  refine ⟨⟨length_geometricBy hn, ?_, getLast?_geometricBy hn⟩, ?_, ?_, ?_⟩
  · rw [head?_geometricBy hn, rungBy_zero hpow hrange hn hn']
  · intro htwo
    show isIncreasing (geometricBy pow lowest highest n) = true
    rw [htwo]
    exact isIncreasing_two hpow hrange
  · intro hquotient
    refine ⟨?_, fun hinner => not_isIncreasing hpow hrange hquotient hinner hn'⟩
    intro i hi hin
    rw [getElem?_geometricBy hn, if_pos (by omega),
      rungBy_infinite hpow hrange hquotient hi hin hn']
  · intro hspread
    refine ⟨hspread.isIncreasing hpow hn, ?_⟩
    intro i hi
    obtain ⟨hnormal, herror⟩ := hspread.rung hpow hn hi
    refine ⟨rungBy pow lowest highest n i, ?_, hnormal.finite, herror⟩
    rw [getElem?_geometricBy hn, if_pos hi]

/-- Three replicas from `1` to `4`. -/
def moderate : Config Float :=
  { (Config.standard : Config Float) with
    replicas := 3, minTemperature := 1.0, maxTemperature := 4.0 }

/-- Three replicas from `2 ^ -1000` to `2 ^ 1000`. -/
def extreme : Config Float :=
  { (Config.standard : Config Float) with
    replicas := 3, minTemperature := Float.ofBits 0x0170000000000000,
    maxTemperature := Float.ofBits 0x7e70000000000000 }

theorem spread_moderate : Spread moderate.minTemperature moderate.maxTemperature 3 := by
  show Spread 1.0 4.0 3
  have hunpack : (1.0 : Float).toModel.unpack = .finite .positive (2 ^ 52) (-52) (by norm_num) := by
    rfl
  have hunpack' : (4.0 : Float).toModel.unpack = .finite .positive (2 ^ 52) (-50) (by norm_num) := by
    rfl
  have hone := value_of_unpack hunpack
  have hfour := value_of_unpack hunpack'
  norm_num at hone hfour
  refine ⟨⟨by rfl, by rfl, ?_, ?_⟩, ?_, by rfl, ?_⟩
  · norm_num [hone]
  · norm_num [hone, hfour]
  · rw [hone]
    exact leastNormal_le_one
  · norm_num [hone, hfour]

/-- One of the ladders is increasing, the other one is not. -/
theorem starting_ladder_of_three :
    (moderate.validate = .ok () ∧ isIncreasing
      (geometricBy truncatedPower moderate.minTemperature moderate.maxTemperature 3) = true) ∧
    extreme.validate = .ok () ∧
      (geometricBy truncatedPower extreme.minTemperature extreme.maxTemperature 3)[1]? =
        some Scalar.infinity ∧
      isIncreasing
        (geometricBy truncatedPower extreme.minTemperature extreme.maxTemperature 3) = false := by
  have hmoderate : moderate.validate = .ok () := by rfl
  have hextreme : extreme.validate = .ok () := by rfl
  obtain ⟨-, -, -, hspread⟩ := starting_ladder isPower_truncatedPower hmoderate (by decide)
  obtain ⟨-, -, hover, -⟩ := starting_ladder isPower_truncatedPower hextreme (by decide)
  obtain ⟨hinner, hbroken⟩ := hover (by decide)
  exact ⟨⟨hmoderate, (hspread spread_moderate).1⟩, hextreme, hinner 1 (by decide) (by decide),
    hbroken (by decide)⟩

end Tempering

end ThermalSearch
