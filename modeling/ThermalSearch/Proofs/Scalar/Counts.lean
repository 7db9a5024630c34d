import ThermalSearch.Proofs.Scalar.Operations

/-!
# Counts carried as floats

A search over states carries its state numbers as floats and reads them back as the nearest count. The
integer part is cut off first (`toNat_toUInt64`), and what is left is compared with one half. Both parts
of a float have no more bits than the float (`onGrid_floor`), so neither is rounded, and halves go up
exactly (`nearest_eq_floor`). Beyond the 64-bit counts there is the greatest of them, and an undefined
float counts as zero.

A count of up to 53 bits therefore comes back unchanged (`nearest_ofNat`).
-/

namespace ThermalSearch.Binary64

open Float.Model Float.Model.UnpackedFloat

/-! ## The integer part -/

/-- A mantissa with a negative exponent, in whole units and what is left of them. -/
theorem floor_shifted (m k : Nat) : ⌊(m : ℝ) * 2 ^ (-k : ℤ)⌋₊ = m / 2 ^ k := by
  rw [zpow_neg, zpow_natCast, ← div_eq_mul_inv]
  exact_mod_cast Nat.floor_div_eq_div (K := ℝ) m (2 ^ k)

/-- The conversion to an integer drops what is after the point. -/
theorem roundToInt_eq (s : Sign) (m : Nat) (e : ℤ) :
    roundToInt s m e = s.apply (⌊(m : ℝ) * 2 ^ e⌋₊ : Nat) := by
  unfold roundToInt decreaseExponent shiftToExponent
  dsimp only
  rw [mantissa_shiftRight, mantissa_ofMantissaAndAccuracy, Nat.shiftLeft_eq, sub_zero]
  rcases le_total 0 e with hwhole | hpart
  · obtain ⟨k, rfl⟩ := Int.eq_ofNat_of_zero_le hwhole
    have hvalue : (m : ℝ) * 2 ^ (k : ℤ) = (m * 2 ^ k : Nat) := by
      rw [zpow_natCast]
      push_cast
      rfl
    rw [hvalue, Nat.floor_natCast, Int.toNat_natCast, sub_self, sub_zero, Int.toNat_zero, pow_zero,
      Nat.div_one]
  · obtain ⟨k, hk⟩ := Int.exists_eq_neg_ofNat hpart
    have hleft : e.toNat = 0 := by omega
    have hright : (0 - (e - (e.toNat : ℤ))).toNat = k := by omega
    rw [hright, hleft, pow_zero, mul_one, hk, floor_shifted]

/-- The integer part, kept within the 64-bit counts. -/
theorem toNat_toUInt64 {x : Float} (hx : x.isFinite) :
    x.toUInt64.toNat = min ⌊value x⌋₊ (2 ^ 64 - 1) := by
  have hclamp : ∀ n, (UInt64.ofNatClamp n).toNat = min n (2 ^ 64 - 1) := by
    intro n
    rcases Nat.lt_or_ge n UInt64.size with hlt | hge
    · rw [UInt64.toNat_ofNatClamp_of_lt hlt]
      exact (Nat.min_eq_left (Nat.le_pred_of_lt hlt)).symm
    · rw [UInt64.toNat_ofNatClamp_of_le hge]
      exact (Nat.min_eq_right ((Nat.pred_le _).trans hge)).symm
  have hread : x.toUInt64 =
      UInt64.ofNatClamp (toInt 0 (UInt64.size - 1) x.toModel.unpack).toNat := rfl
  rw [hread, hclamp]
  congr 1
  rcases unpack_of_finite hx with ⟨s, hunpack⟩ | ⟨s, m, e, hm, hunpack, -⟩
  · rw [value_of_zero hunpack, hunpack, Nat.floor_zero]
    rfl
  · rw [value_of_finite hunpack, hunpack]
    show (roundToInt s m e).toNat = _
    rw [roundToInt_eq]
    cases s with
    | positive => rfl
    | negative =>
      have hnonpos : -((m : ℝ) * 2 ^ e) ≤ 0 := neg_nonpos.mpr (by positivity)
      rw [signed, Nat.floor_of_nonpos hnonpos]
      simp [Sign.apply]

/-- Neither part of a float needs more bits than the float. -/
theorem onGrid_floor {x : Float} (hx : x.isFinite) :
    OnGrid (⌊value x⌋₊ : ℝ) ∧ OnGrid (value x - ⌊value x⌋₊) := by
  rcases le_or_gt (value x) 0 with hneg | hpos
  · rw [Nat.floor_of_nonpos hneg, Nat.cast_zero, sub_zero]
    exact ⟨onGrid_zero, onGrid_value hx⟩
  · obtain ⟨m, e, hm, hunpack, hcanonical⟩ := unpack_of_pos hx hpos
    have hvalue := value_of_unpack hunpack
    rcases le_total 0 e with hwhole | hpart
    · -- without digits after the point there is nothing to drop
      obtain ⟨k, rfl⟩ := Int.eq_ofNat_of_zero_le hwhole
      have hcount : value x = (m * 2 ^ k : Nat) := by
        rw [hvalue, zpow_natCast]
        push_cast
        rfl
      have hsame : (⌊value x⌋₊ : ℝ) = value x := by rw [hcount, Nat.floor_natCast]
      rw [hsame, sub_self]
      exact ⟨onGrid_value hx, onGrid_zero⟩
    · obtain ⟨k, rfl⟩ := Int.exists_eq_neg_ofNat hpart
      have hfits : m < 2 ^ 53 := hcanonical.mantissa_lt
      have hrest : (m : ℝ) * 2 ^ (-k : ℤ) - (m / 2 ^ k : Nat) = (m % 2 ^ k : Nat) * 2 ^ (-k : ℤ) := by
        have hsplit : (m : ℝ) = (2 ^ k * (m / 2 ^ k) + m % 2 ^ k : Nat) := by rw [Nat.div_add_mod]
        nth_rewrite 1 [hsplit]
        rw [zpow_neg, zpow_natCast]
        push_cast
        field_simp
        ring
      rw [hvalue, floor_shifted, hrest]
      refine ⟨?_, onGrid_mul_zpow ((Nat.mod_le _ _).trans hfits.le) hcanonical.exponent_ge⟩
      have hgrid := onGrid_mul_zpow (n := m / 2 ^ k) (e := 0) ((Nat.div_le_self _ _).trans hfits.le)
        (by norm_num)
      rwa [zpow_zero, mul_one] at hgrid

/-! ## The nearest count -/

theorem toFloat_eq_ofNat (n : UInt64) : n.toFloat = Scalar.ofNat n.toNat := by
  show n.toFloat = Scalar.countFloat n.toNat
  rw [Scalar.countFloat, if_pos n.toNat_lt_size, Nat.toUInt64_eq, UInt64.ofNat_toNat]

theorem value_half : value 0.5 = 1 / 2 := by
  have hhalf : (0.5 : Float).toModel.unpack = .finite .positive (2 ^ 52) (-53) (by norm_num) := by
    rfl
  rw [value_of_unpack hhalf]
  norm_num

/-- Whether a number is nearer to the next count is told by what is after the point. -/
theorem floor_add_half (v : ℝ) :
    ⌊v + 1 / 2⌋₊ = if 1 / 2 ≤ v - ⌊v⌋₊ then ⌊v⌋₊ + 1 else ⌊v⌋₊ := by
  have habove := Nat.lt_floor_add_one v
  split
  next hup =>
    have hcount : (0 : ℝ) ≤ ⌊v⌋₊ := Nat.cast_nonneg _
    rw [Nat.floor_eq_iff (by linarith)]
    push_cast
    constructor <;> linarith
  next hdown =>
    rcases le_or_gt 0 v with hv | hv
    · have hbelow := Nat.floor_le hv
      rw [Nat.floor_eq_iff (by linarith)]
      constructor <;> linarith
    · rw [Nat.floor_of_nonpos hv.le, Nat.floor_eq_zero]
      linarith

/-- What is after the point is left exactly when the integer part is taken away. -/
theorem value_sub_floor {x : Float} (hx : x.isFinite) (hcount : ⌊value x⌋₊ < 2 ^ 64) :
    (x - Scalar.ofNat ⌊value x⌋₊).isFinite ∧
      value (x - Scalar.ofNat ⌊value x⌋₊) = value x - ⌊value x⌋₊ := by
  obtain ⟨hgrid, hrest⟩ := onGrid_floor hx
  have hsmall : |(⌊value x⌋₊ : ℝ)| ≤ greatest := by
    have hlt : (⌊value x⌋₊ : ℝ) < 2 ^ 64 := by exact_mod_cast hcount
    rw [Nat.abs_cast]
    exact (hlt.trans lt_greatest).le
  have hrange : |value x - ⌊value x⌋₊| ≤ greatest := by
    refine le_trans ?_ (abs_value_le_greatest hx)
    rcases le_or_gt (value x) 0 with hneg | hpos
    · rw [Nat.floor_of_nonpos hneg, Nat.cast_zero, sub_zero]
    · have hbelow := Nat.floor_le hpos.le
      rw [abs_of_nonneg (sub_nonneg.mpr hbelow), abs_of_pos hpos]
      exact sub_le_self _ (Nat.cast_nonneg _)
  have hwhole : IsRounded (Scalar.ofNat ⌊value x⌋₊) ⌊value x⌋₊ := isRounded_ofNat hcount
  have hdifference := isRounded_sub hx (hwhole.finite hsmall)
  rw [hwhole.eq hgrid hsmall] at hdifference
  exact ⟨hdifference.finite hrange, hdifference.eq hrest hrange⟩

/-- The nearest count is the integer part of a half more. -/
theorem nearest_eq_floor {x : Float} (hx : x.isFinite) :
    Scalar.nearest x = min ⌊value x + 1 / 2⌋₊ (2 ^ 64 - 1) := by
  have hnearest : Scalar.nearest x =
      if (0.5 : Float) ≤ x - Scalar.ofNat x.toUInt64.toNat then min (x.toUInt64.toNat + 1) (2 ^ 64 - 1)
      else x.toUInt64.toNat := by
    rw [← toFloat_eq_ofNat]
    rfl
  rw [hnearest, toNat_toUInt64 hx]
  rcases Nat.lt_or_ge ⌊value x⌋₊ (2 ^ 64) with hcount | hbeyond
  · have hwhole : min ⌊value x⌋₊ (2 ^ 64 - 1) = ⌊value x⌋₊ := by omega
    obtain ⟨hfinite, hvalue⟩ := value_sub_floor hx hcount
    have hhalf : (0.5 : Float) ≤ x - Scalar.ofNat ⌊value x⌋₊ ↔ 1 / 2 ≤ value x - ⌊value x⌋₊ := by
      rw [le_iff_value_le (by rfl) hfinite, value_half, hvalue]
    rw [hwhole, floor_add_half]
    simp only [hhalf]
    split
    · rfl
    · exact hwhole.symm
  · -- all that is left is to see that the greatest count stands on either side
    have hnext : 2 ^ 64 ≤ ⌊value x + 1 / 2⌋₊ :=
      hbeyond.trans (Nat.floor_le_floor (le_add_of_nonneg_right (by norm_num)))
    rw [Nat.min_eq_right (by omega : 2 ^ 64 - 1 ≤ ⌊value x⌋₊),
      Nat.min_eq_right (by omega : 2 ^ 64 - 1 ≤ ⌊value x + 1 / 2⌋₊)]
    split <;> rfl

/-- The greatest count is the one nearest to infinity. -/
theorem nearest_infinity : Scalar.nearest (infinite .positive) = 2 ^ 64 - 1 := by rfl

theorem nearest_neg_infinity : Scalar.nearest (infinite .negative) = 0 := by rfl

theorem nearest_of_isNaN {x : Float} (hx : x.isNaN) : Scalar.nearest x = 0 := by
  rw [← pack_unpack_model x, unpack_of_isNaN hx]
  rfl

/-- A float that stands for a count is nearest to it. -/
theorem nearest_of_value_eq {x : Float} {n : Nat} (hx : x.isFinite) (hn : n < 2 ^ 64)
    (h : value x = n) : Scalar.nearest x = n := by
  have hfloor : ⌊(n : ℝ) + 1 / 2⌋₊ = n := by
    rw [Nat.floor_eq_iff (by positivity)]
    constructor <;> linarith
  rw [nearest_eq_floor hx, h, hfloor]
  omega

theorem nearest_ofNat {n : Nat} (hn : n < 2 ^ 53) : Scalar.nearest (Scalar.ofNat n : Float) = n := by
  obtain ⟨hfinite, hvalue⟩ := value_ofNat hn
  exact nearest_of_value_eq hfinite (by omega) hvalue

end ThermalSearch.Binary64
