import ThermalSearch.Proofs.Scalar.Rounding

/-!
# Powers in binary floating point

Powers are not among the operations that floating point defines to the last bit. What is proved of
them holds of any function that has the documented exact cases and a small relative error
(`IsPower`). There is such a function (`isPower_truncatedPower`).
-/

namespace ThermalSearch.Binary64

open Float.Model Float.Model.UnpackedFloat

/-- Binary floating point with powers that are computed by a given function. -/
@[reducible] def withPow (pow : Float → Float → Float) : Scalar Float :=
  { (inferInstance : Scalar Float) with pow := pow }

/-- A function that computes powers: the zeroth power is one, positive powers of infinity are infinite,
and a power that is between one and its base has a small relative error. -/
structure IsPower (pow : Float → Float → Float) : Prop where
  zero : ∀ x, pow x 0.0 = 1.0
  infinity : ∀ y, 0.0 < y → pow Scalar.infinity y = Scalar.infinity
  near : ∀ x y : Float, x.isFinite → y.isFinite → 1 ≤ value x → 0 < value y → value y ≤ 1 →
    Near (2 ^ (-40 : ℤ)) (pow x y) (value x ^ value y)

/-! ## A function that computes powers -/

/-- A positive number cut off after 53 bits. -/
noncomputable def truncate (z : ℝ) : Float :=
  Float.ofModel (Float.Model.pack (roundWithAccuracy Format.binary64 .positive
    ⌊z / (2 ^ (Int.log 2 z - 52) : ℚ)⌋₊ (Int.log 2 z - 52) .exact))

theorem near_truncate {z : ℝ} (hnormal : leastNormal ≤ z) (hlt : z < greatest) :
    Near (2 ^ (-52 : ℤ)) (truncate z) z := by
  have hpos : 0 < z := leastNormal_pos.trans_le hnormal
  have hbit : (0 : ℝ) < 2 ^ (Int.log 2 z - 52) := zpow_pos (by norm_num) _
  have hfirst : (2 : ℝ) ^ Int.log 2 z ≤ z := Int.zpow_log_le_self (by norm_num) hpos
  have hfull : 2 ^ 52 ≤ ⌊z / 2 ^ (Int.log 2 z - 52)⌋₊ := by
    rw [Nat.le_floor_iff (div_pos hpos hbit).le, le_div_iff₀ hbit]
    have hbits : ((2 ^ 52 : Nat) : ℝ) * 2 ^ (Int.log 2 z - 52) = 2 ^ Int.log 2 z := by
      rw [zpow_sub₀ (by norm_num), Nat.cast_pow]
      exact mul_div_cancel₀ _ (by norm_num)
    rw [hbits]
    exact hfirst
  have hlow : ⌊z / 2 ^ (Int.log 2 z - 52)⌋₊ * (2 : ℝ) ^ (Int.log 2 z - 52) ≤ z := by
    rw [← le_div_iff₀ hbit]
    exact Nat.floor_le (div_pos hpos hbit).le
  have hhigh : z < (⌊z / 2 ^ (Int.log 2 z - 52)⌋₊ + 1) * (2 : ℝ) ^ (Int.log 2 z - 52) := by
    rw [← div_lt_iff₀ hbit]
    exact Nat.lt_floor_add_one _
  rw [truncate, Rat.cast_zpow, Rat.cast_ofNat]
  rcases near_of_round hfull hlow hhigh hnormal .exact with hnear | ⟨-, hover⟩
  · exact hnear
  · exact absurd hlt hover.not_gt

/-- Powers of numbers that are cut off after 53 bits. -/
noncomputable def truncatedPower (x y : Float) : Float :=
  if y = 0.0 then 1.0
  else if x = Scalar.infinity then Scalar.infinity
  else if value y = 1 then x
  else truncate (value x ^ value y)

theorem isPower_truncatedPower : IsPower truncatedPower where
  zero x := if_pos rfl
  infinity y hy := by
    have hne : y ≠ 0.0 := by
      rintro rfl
      exact absurd hy (by decide)
    rw [truncatedPower, if_neg hne, if_pos rfl]
  near x y hx hy hone hpos hle := by
    have hne : y ≠ 0.0 := by
      rintro rfl
      exact absurd hpos (value_zero ▸ lt_irrefl _)
    have hfinite : x ≠ Scalar.infinity := by
      rintro rfl
      exact absurd hx (by decide)
    rw [truncatedPower, if_neg hne, if_neg hfinite]
    by_cases hexponent : value y = 1
    · rw [if_pos hexponent, hexponent, Real.rpow_one]
      refine ⟨⟨hx, leastNormal_le_one.trans hone⟩, ?_⟩
      rw [sub_self, abs_zero]
      positivity
    · rw [if_neg hexponent]
      have hpower : 1 ≤ value x ^ value y := Real.one_le_rpow hone hpos.le
      have hsmall : value x ^ value y < greatest := by
        rcases eq_or_lt_of_le hone with hbase | hbase
        · rw [← hbase, Real.one_rpow]
          exact lt_trans (by norm_num) lt_greatest
        · have hnormal : Normal x := ⟨hx, leastNormal_le_one.trans hone⟩
          calc value x ^ value y < value x ^ (1 : ℝ) :=
                Real.rpow_lt_rpow_of_exponent_lt hbase (lt_of_le_of_ne hle hexponent)
            _ = value x := Real.rpow_one _
            _ ≤ greatest := hnormal.le_greatest
      exact (near_truncate (leastNormal_le_one.trans hpower) hsmall).mono (by linarith) (by norm_num)

end ThermalSearch.Binary64
