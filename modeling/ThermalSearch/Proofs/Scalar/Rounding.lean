import ThermalSearch.Proofs.Scalar.Binary64

/-!
# Rounding in binary floating point

Products, quotients and counts are computed exactly and then rounded: the mantissa is cut off after 53
bits, and one may be added to what is left. In the normal range that is a relative error of one part in
`2 ^ 52` at most (`Near`), and what is rounded beyond the greatest float is infinite
(`near_of_round`). That is less than there is to say, for rounding is to the nearest float; but it
needs no look at the bits that are cut off.

Where nothing has to be cut off, or there is an infinity among the operands, results are exact.
-/

namespace ThermalSearch.Binary64

open Float.Model Float.Model.UnpackedFloat

/-- A normal float that is a number up to a relative error. -/
structure Near (ε : ℝ) (x : Float) (z : ℝ) : Prop extends Normal x where
  error : |value x - z| ≤ ε * z

theorem mantissa_shiftRight (em : ExtendedMantissa) (k : Nat) :
    (em >>> k).mantissa = em.mantissa / 2 ^ k := by
  induction k with
  | zero =>
    rw [pow_zero, Nat.div_one]
    rfl
  | succ k ih =>
    have hstep : (em >>> (k + 1)).mantissa = (em >>> k).mantissa / 2 := rfl
    rw [hstep, ih, Nat.div_div_eq_div_mul, pow_succ]

theorem roundedMantissa_bounds (em : ExtendedMantissa) :
    em.mantissa ≤ em.roundedMantissa ∧ em.roundedMantissa ≤ em.mantissa + 1 := by
  rcases em with ⟨m, _ | _, _ | _⟩ <;>
    simp [ExtendedMantissa.roundedMantissa, ExtendedMantissa.accuracy,
      Accuracy.roundToNearestEven]
  omega

theorem mantissa_ofMantissaAndAccuracy (m : Nat) (accuracy : Accuracy) :
    (ExtendedMantissa.ofMantissaAndAccuracy m accuracy).mantissa = m := by
  rcases accuracy with _ | ⟨_ | _ | _⟩ <;> rfl

/-- The exponent that leaves 53 bits, unless it is below the least one. -/
theorem targetExponent_eq (total : ℤ) :
    Format.binary64.targetExponent total = max (total - 53) (-1074) := rfl

/-- With enough bits, a number in the normal range is shifted to 53 of them. -/
theorem shiftToTargetExponent_full {m k : Nat} {e : ℤ} (hk : m.log2 = 52 + k)
    (he : -1074 ≤ e + k) (accuracy : Accuracy) :
    shiftToTargetExponent Format.binary64 m e accuracy =
      (ExtendedMantissa.ofMantissaAndAccuracy m accuracy >>> k, e + k) := by
  have hshift : (Format.binary64.targetExponent (totalExponent m e) - e).toNat = k := by
    rw [targetExponent_eq, totalExponent]
    omega
  unfold shiftToTargetExponent shiftToExponent
  dsimp only
  rw [hshift]

/-- Rounding cuts a mantissa off after 53 bits and may add one to what is left. If that takes one bit
more, the last bit is dropped. -/
theorem roundWithAccuracy_full {m k : Nat} {e : ℤ} (hm : 2 ^ 52 ≤ m) (hk : m.log2 = 52 + k)
    (he : -1074 ≤ e + k) (s : Sign) (accuracy : Accuracy) :
    2 ^ 52 ≤ m / 2 ^ k ∧ ∃ r, m / 2 ^ k ≤ r ∧ r ≤ m / 2 ^ k + 1 ∧
      ((r < 2 ^ 53 ∧ ∃ hr, roundWithAccuracy Format.binary64 s m e accuracy =
          .finite s r (e + k) hr) ∨
        (r = 2 ^ 53 ∧ ∃ hr, roundWithAccuracy Format.binary64 s m e accuracy =
          .finite s (2 ^ 52) (e + k + 1) hr)) := by
  have hpow : 0 < 2 ^ k := Nat.two_pow_pos k
  have hlow : 2 ^ 52 ≤ m / 2 ^ k := by
    rw [Nat.le_div_iff_mul_le hpow, ← pow_add, ← hk]
    exact Nat.log2_self_le (by omega)
  have hhigh : m / 2 ^ k < 2 ^ 53 := by
    have hnext : 53 + k = m.log2 + 1 := by omega
    rw [Nat.div_lt_iff_lt_mul hpow, ← pow_add, hnext]
    exact Nat.lt_log2_self
  have hbounds := roundedMantissa_bounds
    (ExtendedMantissa.ofMantissaAndAccuracy m accuracy >>> k)
  rw [mantissa_shiftRight, mantissa_ofMantissaAndAccuracy] at hbounds
  refine ⟨hlow, _, hbounds.1, hbounds.2, ?_⟩
  unfold roundWithAccuracy
  rw [shiftToTargetExponent_full hk he accuracy]
  dsimp only
  generalize (ExtendedMantissa.ofMantissaAndAccuracy m accuracy >>> k).roundedMantissa = r at *
  by_cases hcarry : r < 2 ^ 53
  · have hr : 2 ^ 52 ≤ r := hlow.trans hbounds.1
    have hbits : r.log2 = 52 + 0 := (Nat.log2_eq_iff (by omega)).mpr ⟨hr, hcarry⟩
    have hmantissa : (ExtendedMantissa.ofMantissaAndAccuracy r .exact >>> 0).mantissa = r := by
      rw [mantissa_shiftRight, mantissa_ofMantissaAndAccuracy, pow_zero, Nat.div_one]
    refine Or.inl ⟨hcarry, by omega, ?_⟩
    rw [shiftToTargetExponent_full hbits (by omega)]
    simp only [hmantissa, Nat.cast_zero, add_zero]
    exact dif_neg (by omega)
  · have hr : r = 2 ^ 53 := by omega
    subst hr
    have hbits : (2 ^ 53 : Nat).log2 = 52 + 1 := Nat.log2_two_pow
    have hmantissa : (ExtendedMantissa.ofMantissaAndAccuracy (2 ^ 53) .exact >>> 1).mantissa =
        2 ^ 52 := by
      rw [mantissa_shiftRight, mantissa_ofMantissaAndAccuracy]
      norm_num
    refine Or.inr ⟨rfl, by norm_num, ?_⟩
    rw [shiftToTargetExponent_full hbits (by omega)]
    simp only [hmantissa, Nat.cast_one]
    exact dif_neg (by norm_num)

/-- A number is cut off below its last bit, and by no more than that bit. -/
theorem cutoff_bounds {m : Nat} {e : ℤ} {z : ℝ} (k : Nat) (hlow : m * 2 ^ e ≤ z)
    (hhigh : z < (m + 1) * 2 ^ e) :
    (m / 2 ^ k : Nat) * (2 : ℝ) ^ (e + k) ≤ z ∧ z < ((m / 2 ^ k : Nat) + 1) * (2 : ℝ) ^ (e + k) := by
  have hpow : (0 : ℝ) < 2 ^ e := zpow_pos (by norm_num) e
  have hbit : (2 : ℝ) ^ (e + k) = 2 ^ k * 2 ^ e := by
    rw [zpow_add₀ (by norm_num), zpow_natCast, mul_comm]
  have hbelow : ((m / 2 ^ k : Nat) : ℝ) * 2 ^ k ≤ m := by
    exact_mod_cast Nat.div_mul_le_self m (2 ^ k)
  have habove : (m : ℝ) + 1 ≤ ((m / 2 ^ k : Nat) + 1) * 2 ^ k := by
    have hnext : m < (m / 2 ^ k + 1) * 2 ^ k := by
      rw [mul_comm]
      exact Nat.lt_mul_div_succ m (Nat.two_pow_pos k)
    exact_mod_cast hnext
  rw [hbit, ← mul_assoc, ← mul_assoc]
  constructor
  · exact le_trans (by gcongr) hlow
  · exact lt_of_lt_of_le hhigh (by gcongr)

/-- The first bit of a number in the normal range is that of its mantissa. -/
theorem log2_of_normal {m : Nat} {e : ℤ} {z : ℝ} (hnormal : leastNormal ≤ z)
    (hhigh : z < (m + 1) * 2 ^ e) : -1022 ≤ m.log2 + e := by
  rw [leastNormal_eq] at hnormal
  have hbits : ((m : ℝ) + 1) ≤ 2 ^ (m.log2 + 1) := by
    exact_mod_cast Nat.lt_log2_self
  have hlt : (2 : ℝ) ^ (-1022 : ℤ) < 2 ^ ((m.log2 : ℤ) + 1 + e) := by
    calc (2 : ℝ) ^ (-1022 : ℤ) ≤ z := hnormal
      _ < (m + 1) * 2 ^ e := hhigh
      _ ≤ 2 ^ (m.log2 + 1) * 2 ^ e := by gcongr
      _ = 2 ^ ((m.log2 : ℤ) + 1 + e) := by
        rw [zpow_add₀ (by norm_num), zpow_add_one₀ (by norm_num), zpow_natCast, pow_succ]
  have hexponent := (zpow_lt_zpow_iff_right₀ (by norm_num)).mp hlt
  omega

/-- A mantissa that was cut off, and one more perhaps, is off by no more than its last bit. -/
theorem rounded_error {c r : Nat} {e : ℤ} {z : ℝ} (hfull : 2 ^ 52 ≤ c) (hdown : c ≤ r)
    (hup : r ≤ c + 1) (hcut : c * 2 ^ e ≤ z) (hnext : z < (c + 1) * 2 ^ e) :
    |r * (2 : ℝ) ^ e - z| ≤ 2 ^ (-52 : ℤ) * z := by
  have hc : (2 : ℝ) ^ 52 ≤ c := by exact_mod_cast hfull
  have hdown' : (c : ℝ) ≤ r := by exact_mod_cast hdown
  have hup' : (r : ℝ) ≤ c + 1 := by exact_mod_cast hup
  have hbit : (0 : ℝ) < 2 ^ e := zpow_pos (by norm_num) _
  have hlast : (2 : ℝ) ^ e ≤ 2 ^ (-52 : ℤ) * z := by
    have hleast : 2 ^ 52 * (2 : ℝ) ^ e ≤ z := le_trans (by gcongr) hcut
    rw [zpow_neg, inv_mul_eq_div, le_div_iff₀ (by positivity), mul_comm]
    exact_mod_cast hleast
  have hlow : (c : ℝ) * 2 ^ e ≤ r * 2 ^ e := by gcongr
  have hhigh : (r : ℝ) * 2 ^ e ≤ (c + 1) * 2 ^ e := by gcongr
  rw [abs_le]
  constructor <;> linarith

/-- What stands between a mantissa with enough bits and the next one is rounded to a float near to it,
or to infinity beyond the greatest float. -/
theorem near_of_round {m : Nat} {e : ℤ} {z : ℝ} (hm : 2 ^ 52 ≤ m) (hlow : m * 2 ^ e ≤ z)
    (hhigh : z < (m + 1) * 2 ^ e) (hnormal : leastNormal ≤ z) (accuracy : Accuracy) :
    let x := Float.ofModel (Float.Model.pack
      (roundWithAccuracy Format.binary64 .positive m e accuracy))
    Near (2 ^ (-52 : ℤ)) x z ∨ (x = Scalar.infinity ∧ greatest ≤ z) := by
  have hfirst : -1022 ≤ m.log2 + e := log2_of_normal hnormal hhigh
  obtain ⟨k, hk⟩ := Nat.exists_eq_add_of_le ((Nat.le_log2 (by omega)).mpr hm : 52 ≤ m.log2)
  have he : -1074 ≤ e + k := by omega
  obtain ⟨hfull, r, hrlow, hrhigh, hround⟩ := roundWithAccuracy_full hm hk he .positive accuracy
  obtain ⟨hcut, hnext⟩ := cutoff_bounds k hlow hhigh
  generalize m / 2 ^ k = c at *
  have hbit : (0 : ℝ) < 2 ^ (e + k) := zpow_pos (by norm_num) _
  have hc : (2 : ℝ) ^ 52 ≤ c := by exact_mod_cast hfull
  have herror := rounded_error hfull hrlow hrhigh hcut hnext
  dsimp only
  rcases hround with ⟨hlt, hpos, hround⟩ | ⟨hcarry, hpos, hround⟩
  · rw [hround]
    rcases pack_cases hpos (hfull.trans hrlow) hlt he with ⟨hnormal, hvalue⟩ | ⟨hinf, hover⟩
    · rw [← hvalue] at herror
      exact Or.inl ⟨hnormal, herror⟩
    · refine Or.inr ⟨hinf, ?_⟩
      have hpow : (2 : ℝ) ^ (972 : ℤ) ≤ 2 ^ (e + k) := zpow_le_zpow_right₀ (by norm_num) hover
      calc greatest ≤ 2 ^ (1024 : ℤ) := greatest_le
        _ = 2 ^ 52 * 2 ^ (972 : ℤ) := by
          rw [← zpow_natCast, ← zpow_add₀ (by norm_num)]
          rfl
        _ ≤ c * 2 ^ (e + k) := by gcongr
        _ ≤ z := hcut
  · rw [hround]
    have hr53 : (r : ℝ) = 2 ^ 53 := by exact_mod_cast hcarry
    rcases pack_cases (e := e + k + 1) hpos (le_refl _) (by norm_num) (by omega) with
      ⟨hnormal, hvalue⟩ | ⟨hinf, hover⟩
    · refine Or.inl ⟨hnormal, ?_⟩
      have hsame : ((2 ^ 52 : Nat) : ℝ) * 2 ^ (e + k + 1) = r * 2 ^ (e + k) := by
        rw [hr53, zpow_add_one₀ (by norm_num)]
        push_cast
        ring
      rw [hvalue, hsame]
      exact herror
    · refine Or.inr ⟨hinf, ?_⟩
      have hpow : (2 : ℝ) ^ (971 : ℤ) ≤ 2 ^ (e + k) := zpow_le_zpow_right₀ (by norm_num) (by omega)
      have hc53 : (2 : ℝ) ^ 53 - 1 ≤ c := by
        have hr' : (r : ℝ) ≤ c + 1 := by exact_mod_cast hrhigh
        linarith
      calc greatest ≤ c * 2 ^ (e + k) := by
            rw [greatest_eq]
            gcongr
        _ ≤ z := hcut

/-! ## Operations -/

/-- The product of two normal numbers. -/
theorem near_mul {x y : Float} (hx : Normal x) (hy : Normal y)
    (hnormal : leastNormal ≤ value x * value y) :
    Near (2 ^ (-52 : ℤ)) (x * y) (value x * value y) ∨
      (x * y = Scalar.infinity ∧ greatest ≤ value x * value y) := by
  obtain ⟨m, e, hm, hux, hfull, -⟩ := hx.unpack
  obtain ⟨m', e', hm', huy, hfull', -⟩ := hy.unpack
  have hexact : value x * value y = (m * m' : Nat) * 2 ^ (e + e') := by
    rw [value_of_unpack hux, value_of_unpack huy, zpow_add₀ (by norm_num)]
    push_cast
    ring
  have hproduct : x * y = Float.ofModel (Float.Model.pack
      (roundWithAccuracy Format.binary64 .positive (m * m') (e + e') .exact)) := by
    show Float.ofModel (Float.Model.pack (UnpackedFloat.mul _ x.toModel.unpack y.toModel.unpack)) = _
    rw [hux, huy]
    rfl
  have hpow : (0 : ℝ) < 2 ^ (e + e') := zpow_pos (by norm_num) _
  rw [hproduct]
  refine near_of_round ?_ hexact.ge ?_ hnormal .exact
  · exact hfull.trans (Nat.le_mul_of_pos_right m hm')
  · rw [hexact]
    linarith

/-- Two full mantissas are divided after one of them got 53 bits more. -/
theorem divCore_full {m m' : Nat} {e e' : ℤ} (hm : m.log2 = 52) (hm' : m'.log2 = 52)
    (he : -1021 ≤ e - e') : divCore Format.binary64 m e m' e' =
      (m <<< 53 / m', e - e' - 53, accuracyOfFraction (m <<< 53 % m') m') := by
  have htarget : min (e - e') (Format.binary64.targetExponent
      (totalExponent m e - totalExponent m' e')) = e - e' - 53 := by
    rw [targetExponent_eq, totalExponent, totalExponent, hm, hm']
    omega
  have hshift : (e - e' - (e - e' - 53)).toNat = 53 := by omega
  unfold divCore
  dsimp only
  rw [htarget, hshift]

/-- The quotient of two full mantissas is below two, so a quotient in the normal range has an exponent
that is. -/
theorem exponent_of_quotient {m m' : Nat} {k : ℤ} (hm : m < 2 ^ 53) (hm' : 2 ^ 52 ≤ m')
    (hnormal : 2 * leastNormal ≤ m / m' * 2 ^ k) : -1021 ≤ k := by
  have hratio : (m : ℝ) / m' < 2 := by
    have hm53 : (m : ℝ) < 2 ^ 53 := by exact_mod_cast hm
    have hm52 : (2 : ℝ) ^ 52 ≤ m' := by exact_mod_cast hm'
    rw [div_lt_iff₀ (by linarith)]
    linarith
  rw [leastNormal_eq] at hnormal
  have hbelow : (2 : ℝ) * 2 ^ (-1022 : ℤ) < 2 * 2 ^ k := by
    calc (2 : ℝ) * 2 ^ (-1022 : ℤ) ≤ m / m' * 2 ^ k := hnormal
      _ < 2 * 2 ^ k := by gcongr
  have hexponent := (zpow_lt_zpow_iff_right₀ (by norm_num)).mp
    (lt_of_mul_lt_mul_left hbelow (by norm_num))
  omega

/-- The quotient of two normal numbers. -/
theorem near_div {x y : Float} (hx : Normal x) (hy : Normal y)
    (hnormal : 2 * leastNormal ≤ value x / value y) :
    Near (2 ^ (-52 : ℤ)) (x / y) (value x / value y) ∨
      (x / y = Scalar.infinity ∧ greatest ≤ value x / value y) := by
  obtain ⟨m, e, hm, hux, hfull, hcanonical⟩ := hx.unpack
  obtain ⟨m', e', hm', huy, hfull', hcanonical'⟩ := hy.unpack
  have hlog : m.log2 = 52 := (Nat.log2_eq_iff hm.ne').mpr ⟨hfull, hcanonical.mantissa_lt⟩
  have hlog' : m'.log2 = 52 := (Nat.log2_eq_iff hm'.ne').mpr ⟨hfull', hcanonical'.mantissa_lt⟩
  have hpos : (0 : ℝ) < m' := by exact_mod_cast hm'
  have hexact : value x / value y = m / m' * 2 ^ (e - e') := by
    rw [value_of_unpack hux, value_of_unpack huy, zpow_sub₀ (by norm_num)]
    field_simp
  have he : -1021 ≤ e - e' := by
    rw [hexact] at hnormal
    exact exponent_of_quotient hcanonical.mantissa_lt hfull' hnormal
  have hquotient : x / y = Float.ofModel (Float.Model.pack (roundWithAccuracy Format.binary64
      .positive (m <<< 53 / m') (e - e' - 53) (accuracyOfFraction (m <<< 53 % m') m'))) := by
    show Float.ofModel (Float.Model.pack (UnpackedFloat.div _ x.toModel.unpack y.toModel.unpack)) = _
    rw [hux, huy]
    simp only [UnpackedFloat.div, divCore_full hlog hlog' he]
    rfl
  have hpow : (0 : ℝ) < 2 ^ (e - e' - 53) := zpow_pos (by norm_num) _
  have hscale : value x / value y = (m <<< 53 : Nat) / m' * 2 ^ (e - e' - 53) := by
    rw [hexact, Nat.shiftLeft_eq, zpow_sub₀ (by norm_num) (e - e') 53]
    push_cast
    field_simp
    norm_num
  rw [hquotient]
  refine near_of_round ?_ ?_ ?_ (by linarith [leastNormal_pos]) _
  · rw [Nat.le_div_iff_mul_le hm', Nat.shiftLeft_eq]
    have hlt := hcanonical'.mantissa_lt
    nlinarith
  · rw [hscale]
    gcongr
    exact Nat.cast_div_le
  · rw [hscale]
    gcongr
    rw [div_lt_iff₀ hpos]
    have hnext : m <<< 53 < (m <<< 53 / m' + 1) * m' := by
      rw [mul_comm]
      exact Nat.lt_mul_div_succ _ hm'
    exact_mod_cast hnext

/-- A positive natural number is brought to 53 bits before it is rounded. -/
theorem ofNat_eq_round {n : Nat} (hn : 0 < n) : UnpackedFloat.ofNat Format.binary64 n =
    roundWithAccuracy Format.binary64 .positive (n <<< (52 - n.log2)) (-(52 - n.log2 : Nat))
      .exact := by
  have hshift : (0 - Format.binary64.targetExponent (totalExponent n 0)).toNat = 52 - n.log2 := by
    rw [targetExponent_eq, totalExponent]
    omega
  have hsign : compare (n : ℤ) 0 = .gt := compare_gt_iff_gt.mpr (by omega)
  unfold UnpackedFloat.ofNat UnpackedFloat.ofInt UnpackedFloat.normalize
  rw [hsign]
  unfold UnpackedFloat.round decreaseExponent
  dsimp only
  rw [Int.toNat_natCast, hshift, zero_sub]

/-- A 64-bit count is converted in one rounding. -/
theorem ofNat_eq_pack {n : Nat} (hlt : n < 2 ^ 64) : (Scalar.ofNat n : Float) =
    Float.ofModel (Float.Model.pack (UnpackedFloat.ofNat Format.binary64 n)) := by
  have hword : n.toUInt64.toNat = n := by
    rw [Nat.toUInt64_eq, UInt64.toNat_ofNat']
    exact Nat.mod_eq_of_lt hlt
  have hsize : n < UInt64.size := hlt
  show Scalar.countFloat n = _
  rw [Scalar.countFloat, if_pos hsize]
  show Float.ofModel (Float.Model.pack (UnpackedFloat.ofNat _ n.toUInt64.toNat)) = _
  rw [hword]

theorem near_count {n : Nat} (hn : 0 < n) (hlt : n < 2 ^ 64) :
    Near (2 ^ (-52 : ℤ)) (Scalar.ofNat n) n := by
  have hexact : (n : ℝ) = (n <<< (52 - n.log2) : Nat) * 2 ^ (-(52 - n.log2 : Nat) : ℤ) := by
    rw [Nat.shiftLeft_eq, zpow_neg, zpow_natCast]
    push_cast
    field_simp
  have hone : (1 : ℝ) ≤ n := by exact_mod_cast hn
  have hpow : (0 : ℝ) < 2 ^ (-(52 - n.log2 : Nat) : ℤ) := zpow_pos (by norm_num) _
  have hfull : 2 ^ 52 ≤ n <<< (52 - n.log2) := by
    have hself := Nat.log2_self_le hn.ne'
    rw [Nat.shiftLeft_eq]
    calc 2 ^ 52 ≤ 2 ^ n.log2 * 2 ^ (52 - n.log2) := by
          rw [← pow_add]
          exact Nat.pow_le_pow_right (by norm_num) (by omega)
      _ ≤ n * 2 ^ (52 - n.log2) := by gcongr
  have hnormal : leastNormal ≤ n := leastNormal_le_one.trans hone
  rw [ofNat_eq_pack hlt, ofNat_eq_round hn]
  rcases near_of_round hfull hexact.ge (by linarith) hnormal .exact with hnear | ⟨-, hover⟩
  · exact hnear
  · exfalso
    have hsmall : (n : ℝ) < 2 ^ 64 := by exact_mod_cast hlt
    exact absurd (hover.trans_lt hsmall) lt_greatest.not_gt

/-! ## Exact operations -/

/-- Shifting drops zeros only. -/
theorem shiftRight_zeros (m k : Nat) :
    ExtendedMantissa.ofMantissaAndAccuracy (m * 2 ^ k) .exact >>> k =
      ExtendedMantissa.ofMantissaAndAccuracy m .exact := by
  induction k generalizing m with
  | zero => rw [pow_zero, mul_one]; rfl
  | succ k ih =>
    have hstep : ExtendedMantissa.ofMantissaAndAccuracy (m * 2 ^ (k + 1)) .exact >>> (k + 1) =
        (ExtendedMantissa.ofMantissaAndAccuracy (m * 2 ^ (k + 1)) .exact >>> k).shiftRightOne := rfl
    have hpow : m * 2 ^ (k + 1) = m * 2 * 2 ^ k := by ring
    rw [hstep, hpow, ih (m * 2)]
    simp [ExtendedMantissa.shiftRightOne, ExtendedMantissa.ofMantissaAndAccuracy]

/-- A canonical number stays what it is. -/
theorem targetExponent_of_canonical {m : Nat} {e : ℤ} (h : Canonical m e) :
    Format.binary64.targetExponent (totalExponent m e) = e := by
  have hlow := h.exponent_ge
  have hbits : m.log2 < 53 ∨ m = 0 := by
    rcases Nat.eq_zero_or_pos m with hzero | hpos
    · exact Or.inr hzero
    · exact Or.inl ((Nat.log2_lt hpos.ne').mpr h.mantissa_lt)
  rw [targetExponent_eq, totalExponent]
  rcases h.full with hfull | hleast
  · have hlog : m.log2 = 52 := (Nat.log2_eq_iff (by omega)).mpr ⟨hfull, h.mantissa_lt⟩
    omega
  · rcases hbits with hbits | rfl
    · omega
    · rw [hleast]
      norm_num

theorem log2_mul_two_pow {m : Nat} (hm : m ≠ 0) (k : Nat) : (m * 2 ^ k).log2 = m.log2 + k := by
  induction k with
  | zero => rw [pow_zero, mul_one, add_zero]
  | succ k ih =>
    have hdouble : m * 2 ^ (k + 1) = 2 * (m * 2 ^ k) := by ring
    rw [hdouble, Nat.log2_two_mul (mul_ne_zero hm (by positivity)), ih, add_assoc]

/-- A canonical number that was given 52 zeros more is rounded to itself. -/
theorem round_zeros {m : Nat} {e : ℤ} (hm : 0 < m) (hcanonical : Canonical m e) :
    roundWithAccuracy Format.binary64 .positive (m * 2 ^ 52) (e + -52) .exact =
      .finite .positive m e hm := by
  have htotal : totalExponent (m * 2 ^ 52) (e + -52) = totalExponent m e := by
    unfold totalExponent
    rw [log2_mul_two_pow hm.ne']
    push_cast
    ring
  have htarget := targetExponent_of_canonical hcanonical
  have hshift : (e - (e + -52)).toNat = 52 := by omega
  have hexponent : e + -52 + (52 : Nat) = e := by omega
  have hfirst : shiftToTargetExponent Format.binary64 (m * 2 ^ 52) (e + -52) .exact =
      (ExtendedMantissa.ofMantissaAndAccuracy m .exact, e) := by
    unfold shiftToTargetExponent shiftToExponent
    dsimp only
    rw [htotal, htarget, hshift, shiftRight_zeros, hexponent]
  have hsecond : shiftToTargetExponent Format.binary64 m e .exact =
      (ExtendedMantissa.ofMantissaAndAccuracy m .exact, e) := by
    unfold shiftToTargetExponent shiftToExponent
    dsimp only
    rw [htarget, sub_self]
    simp
    rfl
  have hrounded : (ExtendedMantissa.ofMantissaAndAccuracy m .exact).roundedMantissa = m := rfl
  unfold roundWithAccuracy
  rw [hfirst]
  dsimp only
  rw [hrounded, hsecond]
  exact dif_neg hm.ne'

theorem mul_one_of_pos {x : Float} (hx : x.isFinite) (hpos : 0 < value x) : x * 1.0 = x := by
  obtain ⟨m, e, hm, hunpack, hcanonical⟩ := unpack_of_pos hx hpos
  have hone : (1.0 : Float).toModel.unpack = .finite .positive (2 ^ 52) (-52) (by norm_num) := by rfl
  have hproduct : x * 1.0 = Float.ofModel (Float.Model.pack
      (roundWithAccuracy Format.binary64 .positive (m * 2 ^ 52) (e + -52) .exact)) := by
    show Float.ofModel (Float.Model.pack
      (UnpackedFloat.mul _ x.toModel.unpack (1.0 : Float).toModel.unpack)) = _
    rw [hunpack, hone]
    rfl
  rw [hproduct, round_zeros hm hcanonical, ← hunpack, pack_unpack_model]

theorem zero_div_of_pos {x : Float} (hx : x.isFinite) (hpos : 0 < value x) : 0.0 / x = 0.0 := by
  obtain ⟨m, e, hm, hunpack, -⟩ := unpack_of_pos hx hpos
  have hzero : (0.0 : Float).toModel.unpack = .zero .positive := by rfl
  show Float.ofModel (Float.Model.pack
    (UnpackedFloat.div _ (0.0 : Float).toModel.unpack x.toModel.unpack)) = 0.0
  rw [hunpack, hzero]
  rfl

theorem mul_infinity_of_pos {x : Float} (hx : x.isFinite) (hpos : 0 < value x) :
    x * Scalar.infinity = Scalar.infinity := by
  obtain ⟨m, e, hm, hunpack, -⟩ := unpack_of_pos hx hpos
  have hinfinity : (Scalar.infinity : Float).toModel.unpack = .infinity .positive := by rfl
  show Float.ofModel (Float.Model.pack
    (UnpackedFloat.mul _ x.toModel.unpack (Scalar.infinity : Float).toModel.unpack)) = _
  rw [hunpack, hinfinity]
  rfl

/-- A quotient of positive numbers is infinite when it is not finite. -/
theorem div_eq_infinity {x y : Float} (hx : x.isFinite) (hxpos : 0 < value x) (hy : y.isFinite)
    (hypos : 0 < value y) (h : ¬ (x / y).isFinite) : x / y = Scalar.infinity := by
  obtain ⟨m, e, hm, hux, -⟩ := unpack_of_pos hx hxpos
  obtain ⟨m', e', hm', huy, -⟩ := unpack_of_pos hy hypos
  have hquotient : x / y = Float.ofModel (Float.Model.pack (UnpackedFloat.div Format.binary64
      (.finite .positive m e hm) (.finite .positive m' e' hm'))) := by
    rw [← hux, ← huy]
    rfl
  rw [hquotient] at h ⊢
  unfold UnpackedFloat.div roundWithAccuracy at h ⊢
  dsimp only at h ⊢
  split at h
  · exact absurd rfl h
  · next hpos =>
    rw [dif_neg hpos]
    exact (isFinite_or_infinity (Nat.pos_of_ne_zero hpos) _).resolve_left h

/-! ## Logarithms -/

namespace Near

variable {ε : ℝ} {x : Float} {z : ℝ}
theorem mono {ε' : ℝ} (h : Near ε x z) (hz : 0 ≤ z) (hε : ε ≤ ε') : Near ε' x z :=
  ⟨h.toNormal, h.error.trans (mul_le_mul_of_nonneg_right hε hz)⟩

theorem bounds (h : Near ε x z) (hz : 0 < z) (hε : ε ≤ 1 / 2) :
    z / 2 ≤ value x ∧ value x ≤ 2 * z := by
  obtain ⟨hlow, hhigh⟩ := abs_le.mp h.error
  have hhalf : ε * z ≤ 1 / 2 * z := by gcongr
  constructor <;> linarith

/-- A small relative error is one of the logarithm, of twice the size at most. -/
theorem log_error (h : Near ε x z) (hz : 0 < z) (hε : ε ≤ 1 / 2) :
    |Real.log (value x) - Real.log z| ≤ 2 * ε := by
  have hε0 : 0 ≤ ε := by
    have herror := (abs_nonneg _).trans h.error
    exact nonneg_of_mul_nonneg_left herror hz
  have hpos : 0 < value x / z := div_pos h.pos hz
  obtain ⟨hlow, hhigh⟩ := abs_le.mp h.error
  have habove : value x / z ≤ 1 + ε := by
    rw [div_le_iff₀ hz]
    linarith
  have hbelow : 1 - ε ≤ value x / z := by
    rw [le_div_iff₀ hz]
    linarith
  have hinv : (value x / z)⁻¹ ≤ 1 + 2 * ε := by
    rw [inv_le_comm₀ hpos (by linarith)]
    refine le_trans ?_ hbelow
    rw [inv_le_iff_one_le_mul₀ (by linarith)]
    nlinarith
  rw [← Real.log_div h.pos.ne' hz.ne', abs_le]
  have hup := Real.log_le_sub_one_of_pos hpos
  have hdown := Real.one_sub_inv_le_log_of_pos hpos
  constructor <;> linarith

end Near

end ThermalSearch.Binary64

