import ThermalSearch.Proofs.Scalar.Signs

/-!
# No overflow below a finite number

Rounding does not go past a number that a float can hold: what is at most such a number is rounded to
something finite (`isFinite_roundWithAccuracy`). Hence a product with a fraction is finite when the
other factor is (`isFinite_mul_fraction`), and taking something finite away from what is not negative
cannot overflow downwards (`add_cases`). A uniform number from a finite range is finite
(`isFinite_uniform`).
-/

namespace ThermalSearch.Binary64

open Float.Model Float.Model.UnpackedFloat

/-! ## Rounding below a canonical number -/

/-- Of positive numbers the lesser has no greater target exponent. -/
theorem targetExponent_le {m M : Nat} {e E : ℤ} (hm : 0 < m) (hcanonical : Canonical M E)
    (hle : (m : ℚ) * 2 ^ e ≤ M * 2 ^ E) :
    Format.binary64.targetExponent (totalExponent m e) ≤ E := by
  have hM : M ≠ 0 := by
    rintro rfl
    have hpos := magnitude_pos hm e
    rw [Nat.cast_zero, zero_mul] at hle
    exact absurd hle hpos.not_ge
  have hbits : (2 : ℚ) ^ ((m.log2 : ℤ) + e) < 2 ^ ((M.log2 : ℤ) + 1 + E) := by
    have hlow : (2 : ℚ) ^ m.log2 ≤ m := by exact_mod_cast Nat.log2_self_le hm.ne'
    have hhigh : (M : ℚ) < 2 ^ (M.log2 + 1) := by exact_mod_cast Nat.lt_log2_self
    calc (2 : ℚ) ^ ((m.log2 : ℤ) + e) = 2 ^ m.log2 * 2 ^ e := by
          rw [zpow_add₀ (by norm_num), zpow_natCast]
      _ ≤ m * 2 ^ e := by gcongr
      _ ≤ M * 2 ^ E := hle
      _ < 2 ^ (M.log2 + 1) * 2 ^ E := by gcongr
      _ = 2 ^ ((M.log2 : ℤ) + 1 + E) := by
        rw [zpow_add₀ (by norm_num), zpow_add_one₀ (by norm_num), zpow_natCast, pow_succ]
  have hexponents := (zpow_lt_zpow_iff_right₀ (by norm_num)).mp hbits
  rw [← targetExponent_of_canonical hcanonical]
  rw [targetExponent_eq, targetExponent_eq, totalExponent, totalExponent]
  omega

/-- Cutting bits off and adding one perhaps does not go past a number that needs none of them. -/
theorem roundedMantissa_le {m M k : Nat} {e E : ℤ} (hk : e + k ≤ E)
    (hle : (m : ℚ) * 2 ^ e ≤ M * 2 ^ E) :
    ((ExtendedMantissa.ofMantissaAndAccuracy m .exact >>> k).roundedMantissa : ℚ) * 2 ^ (e + k) ≤
      M * 2 ^ E := by
  obtain ⟨j, hj⟩ := Int.eq_ofNat_of_zero_le (sub_nonneg.mpr hk)
  have hE : E = e + k + j := by omega
  have hpow : (0 : ℚ) < 2 ^ e := zpow_pos (by norm_num) e
  have hbounds := roundedMantissa_bounds (ExtendedMantissa.ofMantissaAndAccuracy m .exact >>> k)
  rw [mantissa_shiftRight, mantissa_ofMantissaAndAccuracy] at hbounds
  have hexact : 2 ^ k ∣ m →
      (ExtendedMantissa.ofMantissaAndAccuracy m .exact >>> k).roundedMantissa = m / 2 ^ k := by
    rintro ⟨c, rfl⟩
    rw [mul_comm, shiftRight_zeros, Nat.mul_div_cancel _ (Nat.two_pow_pos k)]
    rfl
  generalize (ExtendedMantissa.ofMantissaAndAccuracy m .exact >>> k).roundedMantissa = r at *
  -- in units of the bit that is left, the bound is a whole number
  have hunits : m ≤ M * 2 ^ j * 2 ^ k := by
    rw [hE, zpow_add₀ (by norm_num), zpow_add₀ (by norm_num), zpow_natCast, zpow_natCast] at hle
    have hscaled : (m : ℚ) * 2 ^ e ≤ (M * 2 ^ j * 2 ^ k) * 2 ^ e := by linarith
    exact_mod_cast le_of_mul_le_mul_right hscaled hpow
  have hr : r ≤ M * 2 ^ j := by
    by_cases hdvd : 2 ^ k ∣ m
    · rw [hexact hdvd]
      exact Nat.div_le_of_le_mul (by linarith)
    · have hlt : m < M * 2 ^ j * 2 ^ k := by
        refine lt_of_le_of_ne hunits ?_
        rintro rfl
        exact hdvd (dvd_mul_left _ _)
      have hcut : m / 2 ^ k < M * 2 ^ j := Nat.div_lt_of_lt_mul (by linarith)
      omega
  have hr' : (r : ℚ) ≤ M * 2 ^ j := by exact_mod_cast hr
  calc (r : ℚ) * 2 ^ (e + k) ≤ M * 2 ^ j * 2 ^ (e + k) := by gcongr
    _ = M * 2 ^ E := by
      rw [hE, zpow_add₀ (by norm_num) (e + k), zpow_natCast]
      ring

theorem isFinite_zero (s : Sign) : (Float.ofModel (Float.Model.pack (.zero s))).isFinite := by
  cases s <;> rfl

theorem isFinite_roundWithAccuracy {m M : Nat} {e E : ℤ} (s : Sign) (hm : 0 < m)
    (hcanonical : Canonical M E) (hle : (m : ℚ) * 2 ^ e ≤ M * 2 ^ E)
    (he : e ≤ Format.binary64.targetExponent (totalExponent m e)) :
    (Float.ofModel (Float.Model.pack
      (roundWithAccuracy Format.binary64 s m e .exact))).isFinite := by
  -- the mantissa is cut to fit, and may be carried to one more bit, for which it is cut again
  have hfirst := targetExponent_le hm hcanonical hle
  obtain ⟨k, hk⟩ := Int.eq_ofNat_of_zero_le (sub_nonneg.mpr he)
  have htarget : Format.binary64.targetExponent (totalExponent m e) = e + k := by omega
  have hcut := roundedMantissa_le (k := k) (by omega) hle
  have hshift : shiftToTargetExponent Format.binary64 m e .exact =
      (ExtendedMantissa.ofMantissaAndAccuracy m .exact >>> k, e + k) := by
    unfold shiftToTargetExponent shiftToExponent
    dsimp only
    rw [htarget, add_sub_cancel_left, Int.toNat_natCast]
  unfold roundWithAccuracy
  rw [hshift]
  dsimp only
  generalize (ExtendedMantissa.ofMantissaAndAccuracy m .exact >>> k).roundedMantissa = r at *
  split
  · exact isFinite_zero s
  · next hnonzero =>
    refine (onSide_pack s _).2 ?_
    have hr : 0 < r := by
      rcases Nat.eq_zero_or_pos r with rfl | hr
      · refine absurd ?_ hnonzero
        unfold shiftToTargetExponent shiftToExponent
        dsimp only
        rw [mantissa_shiftRight, mantissa_ofMantissaAndAccuracy, Nat.zero_div]
      · exact hr
    have hsecond := targetExponent_le hr hcanonical hcut
    have hhigh := hcanonical.exponent_le
    unfold shiftToTargetExponent shiftToExponent
    dsimp only
    omega

theorem isFinite_round {m M : Nat} {e E : ℤ} (s : Sign) (hm : 0 < m) (hcanonical : Canonical M E)
    (hle : (m : ℚ) * 2 ^ e ≤ M * 2 ^ E) :
    (Float.ofModel (Float.Model.pack (UnpackedFloat.round Format.binary64 s m e))).isFinite := by
  unfold UnpackedFloat.round decreaseExponent
  dsimp only
  generalize ht : Format.binary64.targetExponent (totalExponent m e) = t
  generalize hk : (e - t).toNat = k
  have hsame : ((m <<< k : Nat) : ℚ) * 2 ^ (e - k) = m * 2 ^ e := by
    rw [Nat.shiftLeft_eq, zpow_sub₀ (by norm_num), zpow_natCast]
    push_cast
    field_simp
  have hpos : 0 < m <<< k := by
    rw [Nat.shiftLeft_eq]
    positivity
  refine isFinite_roundWithAccuracy s hpos hcanonical (hsame.trans_le hle) ?_
  -- the zeros do not change where the leading bit is
  have htotal : totalExponent (m <<< k) (e - k) = totalExponent m e := by
    unfold totalExponent
    rw [Nat.shiftLeft_eq, log2_mul_two_pow hm.ne']
    push_cast
    ring
  rw [htotal, ht]
  omega

theorem isFinite_normalize {z e E : ℤ} {M : Nat} (hz : z < 0) (hcanonical : Canonical M E)
    (hle : ((-z).toNat : ℚ) * 2 ^ e ≤ M * 2 ^ E) :
    (Float.ofModel (Float.Model.pack
      (UnpackedFloat.normalize Format.binary64 z e .positive))).isFinite := by
  unfold UnpackedFloat.normalize
  rw [compare_lt_iff_lt.mpr hz]
  exact isFinite_round .negative (by omega) hcanonical hle

/-! ## Sums and differences -/

/-- Giving a mantissa zeros does not change the number. -/
theorem value_decreaseExponent (s : Sign) {m : Nat} (hm : 0 < m) {e t : ℤ} (ht : t ≤ e) :
    ((s.apply (decreaseExponent m e t).1 : ℤ) : ℚ) * 2 ^ t =
      unpackedValue (.finite s m e hm) := by
  obtain ⟨k, hk⟩ := Int.eq_ofNat_of_zero_le (sub_nonneg.mpr ht)
  have he : e = k + t := by omega
  have hshift : (decreaseExponent m e t).1 = m * 2 ^ k := by
    unfold decreaseExponent
    dsimp only
    rw [hk, Int.toNat_natCast, Nat.shiftLeft_eq]
  rw [hshift, he]
  cases s with
  | positive =>
    simp only [Sign.apply, unpackedValue, zpow_add₀ (two_ne_zero (α := ℚ)), zpow_natCast]
    push_cast
    ring
  | negative =>
    simp only [Sign.apply, unpackedValue, zpow_add₀ (two_ne_zero (α := ℚ)), zpow_natCast]
    push_cast
    ring

/-- Adding something finite leaves nothing undefined. -/
theorem defined_add {x y : Float} (hx : ¬ x.isNaN) (hy : y.isFinite) : ¬ (x + y).isNaN := by
  have hsum : x + y = Float.ofModel (Float.Model.pack
      (UnpackedFloat.add Format.binary64 x.toModel.unpack y.toModel.unpack)) := rfl
  obtain ⟨s, hside⟩ := exists_onSide hx
  rw [OnSide] at hside
  rw [hsum]
  cases hux : x.toModel.unpack with
  | notANumber =>
    rw [hux] at hside
    exact hside.elim
  | infinity t =>
    -- only another infinity could cancel this one
    rcases unpack_of_finite hy with ⟨t', huy⟩ | ⟨t', m', e', hm', huy, -⟩
    · rw [huy]
      exact (onSide_infinity t).defined
    · rw [huy]
      exact (onSide_infinity t).defined
  | zero t =>
    rcases unpack_of_finite hy with ⟨t', huy⟩ | ⟨t', m', e', hm', huy, -⟩
    · rw [huy]
      simp only [UnpackedFloat.add]
      split
      · exact (onSide_zero s t).defined
      · exact (onSide_zero s .positive).defined
    · rw [huy]
      exact (onSide_pack t' hm').1.defined
  | finite t m e hm =>
    rcases unpack_of_finite hy with ⟨t', huy⟩ | ⟨t', m', e', hm', huy, -⟩
    · rw [huy]
      exact (onSide_pack t hm).1.defined
    · rw [huy]
      exact defined_normalize _ _

/-- Taking something finite away from what is not negative gives nothing below the finite numbers. -/
theorem add_cases {x y : Float} (hx : OnSide .positive x) (hy : y.isFinite) :
    (x + y).isFinite ∨ OnSide .positive (x + y) := by
  have hsum : x + y = Float.ofModel (Float.Model.pack
      (UnpackedFloat.add Format.binary64 x.toModel.unpack y.toModel.unpack)) := rfl
  rw [OnSide] at hx
  cases hux : x.toModel.unpack with
  | notANumber =>
    rw [hux] at hx
    exact hx.elim
  | infinity s =>
    rw [hux] at hx
    cases hx
    rw [hsum, hux]
    rcases unpack_of_finite hy with ⟨t, huy⟩ | ⟨t, m', e', hm', huy, -⟩
    · rw [huy]
      exact Or.inr (onSide_infinity .positive)
    · rw [huy]
      exact Or.inr (onSide_infinity .positive)
  | zero s =>
    rcases unpack_of_finite hy with ⟨t, huy⟩ | ⟨t, m', e', hm', huy, -⟩
    · rw [hsum, hux, huy]
      simp only [UnpackedFloat.add]
      split
      · exact Or.inr (onSide_zero .positive s)
      · exact Or.inr (onSide_zero .positive .positive)
    · have hsame : x + y = y := by
        rw [hsum, hux, huy]
        simp only [UnpackedFloat.add]
        rw [← huy, pack_unpack_model]
      rw [hsame]
      exact Or.inl hy
  | finite s m e hm =>
    rw [hux] at hx
    cases hx
    rw [hsum, hux]
    rcases unpack_of_finite hy with ⟨t, huy⟩ | ⟨t, m', e', hm', huy, hcanonical⟩
    · rw [huy]
      exact Or.inr (onSide_pack .positive hm).1
    · rw [huy]
      simp only [UnpackedFloat.add]
      generalize hz : Sign.apply .positive (decreaseExponent m e (min e e')).1 +
        t.apply (decreaseExponent m' e' (min e e')).1 = z
      rcases le_or_gt 0 z with hnonneg | hneg
      · exact Or.inr (onSide_normalize (s := .positive) hnonneg _)
      · -- only a negative summand gets there, and the sum is no greater than that one
        refine Or.inl (isFinite_normalize hneg hcanonical ?_)
        cases t with
        | positive =>
          simp only [Sign.apply] at hz
          omega
        | negative =>
          have hvalue := value_decreaseExponent .negative hm' (min_le_right e e')
          simp only [Sign.apply, unpackedValue, Int.cast_neg, Int.cast_natCast, neg_mul,
            neg_inj] at hvalue
          rw [← hvalue]
          gcongr
          simp only [Sign.apply] at hz
          omega

/-- A difference from something no greater is not negative. -/
theorem onSide_sub {x y : Float} (hx : x.isFinite) (hy : y.isFinite) (h : value y ≤ value x) :
    OnSide .positive (x - y) := by
  have hdifference : x - y = Float.ofModel (Float.Model.pack
      (UnpackedFloat.sub Format.binary64 x.toModel.unpack y.toModel.unpack)) := rfl
  rw [value, value, Rat.cast_le] at h
  rw [hdifference]
  rcases unpack_of_finite hx with ⟨s, hux⟩ | ⟨s, m, e, hm, hux, -⟩ <;>
    rcases unpack_of_finite hy with ⟨t, huy⟩ | ⟨t, m', e', hm', huy, -⟩ <;>
    rw [hux, huy] at h ⊢
  · simp only [UnpackedFloat.sub]
    split
    · exact onSide_zero .positive s
    · exact onSide_zero .positive .positive
  · cases t with
    | positive => exact absurd h (magnitude_pos hm' e').not_ge
    | negative => exact (onSide_pack .positive hm').1
  · cases s with
    | positive => exact (onSide_pack .positive hm).1
    | negative => exact absurd h (neg_lt_zero.mpr (magnitude_pos hm e)).not_ge
  · refine onSide_normalize ?_ _
    have hpow : (0 : ℚ) < 2 ^ min e e' := zpow_pos (by norm_num) _
    rw [← value_decreaseExponent s hm (min_le_left e e'),
      ← value_decreaseExponent t hm' (min_le_right e e')] at h
    exact sub_nonneg.mpr (Int.cast_le.mp (le_of_mul_le_mul_right h hpow))

/-! ## Products with fractions -/

theorem value_one : value 1.0 = 1 := by
  have hone : (1.0 : Float).toModel.unpack = .finite .positive (2 ^ 52) (-52) (by norm_num) := by
    rfl
  rw [value_of_unpack hone]
  norm_num

theorem le_iff_value_le {x y : Float} (hx : x.isFinite) (hy : y.isFinite) :
    x ≤ y ↔ value x ≤ value y := by
  rw [← not_lt, ← lt_iff_value_lt hy hx]
  exact (FiniteOrder.not_lt hy hx).symm

theorem isFinite_mul_fraction {x y : Float} (hx : x.isFinite) (hy : y.isFinite) (hlow : 0.0 ≤ y)
    (hhigh : y ≤ 1.0) : (x * y).isFinite := by
  rcases mul_cases hx hy with
    ⟨u, hzero⟩ | ⟨s, m, e, hm, t, m', e', hm', -, hcanonical, huy, hproduct⟩
  · rw [hzero]
    exact isFinite_zero u
  · have hside := onSide_positive_iff.mpr hlow
    rw [OnSide, huy] at hside
    cases hside
    have hone : (m' : ℚ) * 2 ^ e' ≤ 1 := by
      rw [le_iff_value_le hy (by rfl), value_of_unpack huy, value_one] at hhigh
      refine (Rat.cast_le (K := ℝ)).mp ?_
      push_cast
      exact hhigh
    have hexponent : e' ≤ 0 := by
      have hm1 : (1 : ℚ) ≤ m' := by exact_mod_cast hm'
      have hpow : (0 : ℚ) < 2 ^ e' := zpow_pos (by norm_num) e'
      have hsmall : (2 : ℚ) ^ e' ≤ 2 ^ (0 : ℤ) := by
        rw [zpow_zero]
        nlinarith
      exact (zpow_le_zpow_iff_right₀ (by norm_num)).mp hsmall
    rw [hproduct]
    refine isFinite_roundWithAccuracy _ (Nat.mul_pos hm hm') hcanonical ?_ ?_
    · calc ((m * m' : Nat) : ℚ) * 2 ^ (e + e') = m * 2 ^ e * (m' * 2 ^ e') := by
            rw [zpow_add₀ (by norm_num)]
            push_cast
            ring
        _ ≤ m * 2 ^ e * 1 := by gcongr
        _ = m * 2 ^ e := mul_one _
    · rw [targetExponent_eq, totalExponent]
      rcases hcanonical.full with hfull | hleast
      · have hlog : 52 ≤ (m * m').log2 := by
          rw [Nat.le_log2 (by positivity)]
          exact hfull.trans (Nat.le_mul_of_pos_right m hm')
        omega
      · omega

/-! ## Uniform numbers -/

theorem onSide_quotient {k n : Nat} (hk : k < 2 ^ 64) (hn : 0 < n) (hn' : n < 2 ^ 64) :
    OnSide .positive (Scalar.ofNat k / Scalar.ofNat n) ∧
      (Scalar.ofNat k / Scalar.ofNat n : Float).isFinite := by
  rcases quotient_cases hk hn hn' with hzero | hnormal
  · rw [hzero]
    exact ⟨onSide_zero .positive .positive, by rfl⟩
  · refine ⟨onSide_positive_iff.mpr ?_, hnormal.finite⟩
    rw [le_iff_value_le (by rfl) hnormal.finite, value_zero]
    exact hnormal.pos.le

/-- An attempt is not below the finite numbers, and one that counts is not above them. -/
theorem isFinite_uniformLoop {low high width : Float} (hlow : low.isFinite) (hhigh : high.isFinite)
    (hside : OnSide .positive width) (hwidth : width.isFinite) (attempts : Nat) (g : Generator) :
    (Generator.uniformLoop low high width attempts g).1.isFinite := by
  induction attempts generalizing g with
  | zero => exact hlow
  | succ attempts ih =>
    unfold Generator.uniformLoop
    dsimp only
    split
    next hbelow =>
      have hword : (g.word.1 >>> 12).toNat < 2 ^ 64 := UInt64.toNat_lt _
      obtain ⟨hquotient, hfinite⟩ :=
        onSide_quotient hword (n := 1 <<< 52) (by decide) (by decide)
      rcases add_cases (hquotient.mul hside hfinite hwidth) hlow with hsum | hsum
      · exact hsum
      · by_contra hinfinite
        rw [hsum.eq_infinite hinfinite] at hbelow
        exact not_infinity_lt hhigh hbelow
    next => exact ih _

/-- A uniform number from a finite range is finite. -/
theorem isFinite_uniform {low high offset : Float} {g g' : Generator} (hlow : low.isFinite)
    (h : g.uniform low high = .ok (offset, g')) : offset.isFinite := by
  unfold Generator.uniform at h
  split at h
  next hlt =>
    dsimp only at h
    split at h
    next hrange =>
      rw [Bool.and_eq_true, Bool.and_eq_true] at hrange
      obtain ⟨⟨-, hhigh⟩, hwidth⟩ := hrange
      have hle : value low ≤ value high := ((lt_iff_value_lt hlow hhigh).mp hlt).le
      have hoffset := isFinite_uniformLoop hlow hhigh (onSide_sub hhigh hlow hle) hwidth
        Generator.maxAttempts g
      rw [Except.ok.inj h] at hoffset
      exact hoffset
    next => cases h
  next =>
    cases h
    exact hlow

end ThermalSearch.Binary64
