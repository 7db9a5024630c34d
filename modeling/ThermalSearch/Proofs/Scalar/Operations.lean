import ThermalSearch.Proofs.Scalar.Nearest

/-!
# Rounded operations

Products, sums, differences, quotients and square roots are calculated as if they were exact and rounded
to nearest once, as counts are. A quotient and a root are exact only so far as rounding needs them: what
is left over tells on which side of the half they lie (`locates_quotient`, `locates_sqrt`).
-/

namespace ThermalSearch.Binary64

open Float.Model Float.Model.UnpackedFloat

/-! ## Products -/

theorem signed_mul (s t : Sign) (a b : ℝ) : signed s a * signed t b = signed (s * t) (a * b) := by
  cases s <;> cases t
  · exact neg_mul_neg a b
  · exact neg_mul a b
  · exact mul_neg a b
  · rfl

/-- One full mantissa is enough for a product, and without any the exponents are the least ones. -/
theorem le_targetExponent_mul {m m' : Nat} {e e' : ℤ} (hm : 0 < m) (hm' : 0 < m')
    (h : Canonical m e) (h' : Canonical m' e') :
    e + e' ≤ Format.binary64.targetExponent (totalExponent (m * m') (e + e')) := by
  apply le_targetExponent
  rcases h.full with hfull | hleast
  · exact Or.inl (hfull.trans (Nat.le_mul_of_pos_right m hm'))
  · rcases h'.full with hfull | hleast'
    · exact Or.inl (hfull.trans (Nat.le_mul_of_pos_left m' hm))
    · right
      omega

/-- The product of two floats. -/
theorem isRounded_mul {x y : Float} (hx : x.isFinite) (hy : y.isFinite) :
    IsRounded (x * y) (value x * value y) := by
  have hproduct : x * y = Float.ofModel (Float.Model.pack
      (UnpackedFloat.mul Format.binary64 x.toModel.unpack y.toModel.unpack)) := rfl
  rw [hproduct]
  rcases unpack_of_finite hx with ⟨s, hux⟩ | ⟨s, m, e, hm, hux, hcanonical⟩ <;>
    rcases unpack_of_finite hy with ⟨t, huy⟩ | ⟨t, m', e', hm', huy, hcanonical'⟩ <;>
    rw [hux, huy]
  · rw [value_of_zero hux, zero_mul]
    exact isRounded_of_value_eq (isFinite_zero _) (value_pack_zero _)
  · rw [value_of_zero hux, zero_mul]
    exact isRounded_of_value_eq (isFinite_zero _) (value_pack_zero _)
  · rw [value_of_zero huy, mul_zero]
    exact isRounded_of_value_eq (isFinite_zero _) (value_pack_zero _)
  · have hexact : m * 2 ^ e * (m' * 2 ^ e') = ((m * m' : Nat) : ℝ) * 2 ^ (e + e') := by
      rw [zpow_add₀ (by norm_num)]
      push_cast
      ring
    rw [value_of_finite hux, value_of_finite huy, signed_mul, hexact]
    refine isRounded_of_locates _ .exact ?_ (le_targetExponent_mul hm hm' hcanonical hcanonical')
    exact mul_div_cancel_right₀ _ (zpow_ne_zero _ (by norm_num))

/-- A square that is rounded to zero has no sign. -/
theorem mul_self_eq_zero_of_value {x : Float} (hx : x.isFinite) (hfinite : (x * x).isFinite)
    (h : value (x * x) = 0) : x * x = 0.0 := by
  have hsquare : x * x = Float.ofModel (Float.Model.pack
      (UnpackedFloat.mul Format.binary64 x.toModel.unpack x.toModel.unpack)) := rfl
  have hsign (s : Sign) : s * s = .positive := by
    cases s <;> rfl
  rcases unpack_of_finite hx with ⟨s, hux⟩ | ⟨s, m, e, hm, hux, hcanonical⟩
  · rw [hsquare, hux, UnpackedFloat.mul, hsign]
    rfl
  · have hrounded : x * x = Float.ofModel (Float.Model.pack
        (roundWithAccuracy Format.binary64 .positive (m * m) (e + e) .exact)) := by
      rw [hsquare, hux, UnpackedFloat.mul, hsign]
    have hexact : Locates (m * m) .exact
        ((m * m : Nat) * (2 : ℝ) ^ (e + e) / 2 ^ (e + e)) :=
      mul_div_cancel_right₀ _ (zpow_ne_zero _ (by norm_num))
    obtain ⟨t, r, -, hround⟩ := pack_roundWithAccuracy_cases .positive hexact
      (le_targetExponent_mul hm hm hcanonical hcanonical)
    rw [← hrounded] at hround
    rcases hround with ⟨-, hzero⟩ | ⟨hpos, -, hvalue⟩ | ⟨hinfinite, -⟩
    · rw [hzero]
      rfl
    · rw [hvalue] at h
      have hpos' : (0 : ℝ) < r * 2 ^ t := by positivity
      exact absurd h hpos'.ne'
    · exact absurd hfinite hinfinite

/-! ## Sums and differences -/

theorem isRounded_round {m : Nat} (s : Sign) (hm : 0 < m) (e : ℤ) :
    IsRounded (Float.ofModel (Float.Model.pack (UnpackedFloat.round Format.binary64 s m e)))
      (signed s (m * 2 ^ e)) := by
  unfold UnpackedFloat.round decreaseExponent
  dsimp only
  generalize ht : Format.binary64.targetExponent (totalExponent m e) = t
  generalize hk : (e - t).toNat = k
  -- the zeros do not change where the leading bit is
  have htotal : totalExponent (m <<< k) (e - k) = totalExponent m e := by
    unfold totalExponent
    rw [Nat.shiftLeft_eq, log2_mul_two_pow hm.ne']
    push_cast
    ring
  refine isRounded_of_locates s .exact ?_ ?_
  · rw [Nat.shiftLeft_eq, zpow_sub₀ (by norm_num), zpow_natCast]
    show _ = _
    push_cast
    field_simp
  · rw [htotal, ht]
    omega

theorem isRounded_normalize (n e : ℤ) :
    IsRounded (Float.ofModel (Float.Model.pack
      (UnpackedFloat.normalize Format.binary64 n e .positive))) (n * 2 ^ e) := by
  unfold UnpackedFloat.normalize
  rcases lt_trichotomy n 0 with hneg | rfl | hpos
  · have hsize : (n : ℝ) * 2 ^ e = signed .negative ((-n).toNat * 2 ^ e) := by
      obtain ⟨k, hk⟩ := Int.eq_ofNat_of_zero_le (a := -n) (by omega)
      obtain rfl : n = -k := by omega
      simp [signed]
    rw [compare_lt_iff_lt.mpr hneg, hsize]
    exact isRounded_round .negative (by omega) e
  · rw [Int.cast_zero, zero_mul]
    exact isRounded_of_value_eq (isFinite_zero .positive) (value_pack_zero .positive)
  · have hsize : (n : ℝ) * 2 ^ e = signed .positive (n.toNat * 2 ^ e) := by
      obtain ⟨k, rfl⟩ := Int.eq_ofNat_of_zero_le hpos.le
      simp [signed]
    rw [compare_gt_iff_gt.mpr hpos, hsize]
    exact isRounded_round .positive (by omega) e

/-- A mantissa with more zeros, as a signed number of units. -/
theorem value_of_decreased {x : Float} {s : Sign} {m : Nat} {e t : ℤ} {hm : 0 < m}
    (h : x.toModel.unpack = .finite s m e hm) (ht : t ≤ e) :
    value x = (s.apply (decreaseExponent m e t).1 : ℤ) * 2 ^ t := by
  have hunits := value_decreaseExponent s hm ht
  rw [value, h, ← hunits]
  push_cast
  rfl

/-- The sum of two floats. -/
theorem isRounded_add {x y : Float} (hx : x.isFinite) (hy : y.isFinite) :
    IsRounded (x + y) (value x + value y) := by
  have hsum : x + y = Float.ofModel (Float.Model.pack
      (UnpackedFloat.add Format.binary64 x.toModel.unpack y.toModel.unpack)) := rfl
  rcases unpack_of_finite hx with ⟨s, hux⟩ | ⟨s, m, e, hm, hux, -⟩ <;>
    rcases unpack_of_finite hy with ⟨t, huy⟩ | ⟨t, m', e', hm', huy, -⟩
  · rw [value_of_zero hux, value_of_zero huy, zero_add, hsum, hux, huy]
    simp only [UnpackedFloat.add]
    split <;> exact isRounded_of_value_eq (isFinite_zero _) (value_pack_zero _)
  · have hsame : x + y = y := by
      rw [hsum, hux, huy]
      simp only [UnpackedFloat.add]
      rw [← huy, pack_unpack_model]
    rw [value_of_zero hux, zero_add, hsame]
    exact isRounded_of_value_eq hy rfl
  · have hsame : x + y = x := by
      rw [hsum, hux, huy]
      simp only [UnpackedFloat.add]
      rw [← hux, pack_unpack_model]
    rw [value_of_zero huy, add_zero, hsame]
    exact isRounded_of_value_eq hx rfl
  · rw [value_of_decreased hux (min_le_left e e'), value_of_decreased huy (min_le_right e e'),
      ← add_mul, ← Int.cast_add, hsum, hux, huy]
    exact isRounded_normalize _ _

/-- A difference is a sum with the other sign. -/
theorem sub_eq_add_neg_of_finite {x y : Float} (hy : y.isFinite) : x - y = x + -y := by
  have hsum : x + -y = Float.ofModel (Float.Model.pack
      (UnpackedFloat.add Format.binary64 x.toModel.unpack (-y).toModel.unpack)) := rfl
  have hdifference : x - y = Float.ofModel (Float.Model.pack
      (UnpackedFloat.sub Format.binary64 x.toModel.unpack y.toModel.unpack)) := rfl
  have hunits (s : Sign) (m : ℤ) : (-s).apply m = -s.apply m := by
    cases s <;> simp [Sign.apply]
  rw [hsum, hdifference, unpack_neg hy]
  congr 2
  cases x.toModel.unpack <;> cases y.toModel.unpack <;>
    simp only [UnpackedFloat.sub, UnpackedFloat.add, UnpackedFloat.neg, decreaseExponent, hunits,
      sub_eq_add_neg]

/-- The difference of two floats. -/
theorem isRounded_sub {x y : Float} (hx : x.isFinite) (hy : y.isFinite) :
    IsRounded (x - y) (value x - value y) := by
  rw [sub_eq_add_neg_of_finite hy, sub_eq_add_neg, ← value_neg hy]
  exact isRounded_add hx (isFinite_neg hy)

/-! ## Quotients -/

/-- What is left after a division tells where the quotient lies. -/
theorem locates_quotient (m : Nat) {d : Nat} (hd : 0 < d) :
    Locates (m / d) (accuracyOfFraction (m % d) d) ((m : ℝ) / d) := by
  have hd' : (0 : ℝ) < d := by exact_mod_cast hd
  have hsplit : (m : ℝ) / d = (m / d : Nat) + (m % d : Nat) / d := by
    have hm : (m : ℝ) = d * (m / d : Nat) + (m % d : Nat) := by
      exact_mod_cast (Nat.div_add_mod m d).symm
    rw [div_eq_iff hd'.ne', add_mul, div_mul_cancel₀ _ hd'.ne', mul_comm, ← hm]
  have hrest : m % d < d := Nat.mod_lt m hd
  rw [hsplit]
  generalize m / d = q
  generalize m % d = r at *
  have hless : (r : ℝ) / d < 1 := by
    rw [div_lt_one hd']
    exact_mod_cast hrest
  unfold accuracyOfFraction
  rcases Nat.eq_zero_or_pos r with rfl | hpos
  · rw [if_pos rfl]
    simp [Locates]
  · have hmore : (0 : ℝ) < r / d := by positivity
    rw [if_neg hpos.ne']
    rcases lt_trichotomy (2 * r) d with hlt | heq | hgt
    · rw [compare_lt_iff_lt.mpr hlt]
      have hhalf : (r : ℝ) / d < 1 / 2 := by
        rw [div_lt_div_iff₀ hd' (by norm_num)]
        exact_mod_cast (by omega : r * 2 < 1 * d)
      constructor <;> linarith
    · rw [compare_eq_iff_eq.mpr heq]
      have hhalf : (r : ℝ) / d = 1 / 2 := by
        rw [div_eq_div_iff hd'.ne' (by norm_num)]
        exact_mod_cast (by omega : r * 2 = 1 * d)
      rw [hhalf]
      show (q : ℝ) + 1 / 2 + (q + 1 / 2) = q + q + 1
      ring
    · rw [compare_gt_iff_gt.mpr hgt]
      have hhalf : 1 / 2 < (r : ℝ) / d := by
        rw [div_lt_div_iff₀ (by norm_num) hd']
        exact_mod_cast (by omega : 1 * d < r * 2)
      constructor <;> linarith

theorem signed_div (s t : Sign) (a b : ℝ) : signed s a / signed t b = signed (s / t) (a / b) := by
  cases s <;> cases t
  · exact neg_div_neg_eq a b
  · exact neg_div b a
  · exact div_neg a
  · rfl

/-- The quotient of two floats, if it is not one by zero. -/
theorem isRounded_div {x y : Float} (hx : x.isFinite) (hy : y.isFinite) (hnonzero : value y ≠ 0) :
    IsRounded (x / y) (value x / value y) := by
  have hquotient : x / y = Float.ofModel (Float.Model.pack
      (UnpackedFloat.div Format.binary64 x.toModel.unpack y.toModel.unpack)) := rfl
  rw [hquotient]
  rcases unpack_of_finite hy with ⟨t, huy⟩ | ⟨t, m', e', hm', huy, hcanonical'⟩
  · exact absurd (value_of_zero huy) hnonzero
  · rcases unpack_of_finite hx with ⟨s, hux⟩ | ⟨s, m, e, hm, hux, hcanonical⟩
    · rw [hux, huy, value_of_zero hux, zero_div]
      exact isRounded_of_value_eq (isFinite_zero _) (value_pack_zero _)
    · rw [hux, huy, value_of_finite hux, value_of_finite huy, signed_div]
      simp only [UnpackedFloat.div, divCore]
      generalize htarget : min (e - e') (Format.binary64.targetExponent
        (totalExponent m e - totalExponent m' e')) = u
      obtain ⟨k, hk⟩ := Int.eq_ofNat_of_zero_le (a := e - e' - u) (by omega)
      rw [hk, Int.toNat_natCast]
      refine isRounded_of_locates _ _ ?_ ?_
      · have hunits : m * 2 ^ e / (m' * 2 ^ e') / (2 : ℝ) ^ u = ((m <<< k : Nat) : ℝ) / m' := by
          obtain rfl : e = k + (e' + u) := by omega
          rw [Nat.shiftLeft_eq, zpow_add₀ (by norm_num), zpow_add₀ (by norm_num) e', zpow_natCast]
          push_cast
          field_simp
        rw [hunits]
        exact locates_quotient _ hm'
      · -- the dividend was given so many zeros that the quotient has 53 bits
        apply le_targetExponent
        rcases le_or_gt u (-1074) with hleast | hhigh
        · exact Or.inr hleast
        · have hbits : m'.log2 + 53 ≤ m.log2 + k := by
            rw [targetExponent_eq, totalExponent, totalExponent] at htarget
            omega
          left
          rw [Nat.le_div_iff_mul_le hm', Nat.shiftLeft_eq]
          calc 2 ^ 52 * m' ≤ 2 ^ 52 * 2 ^ (m'.log2 + 1) := by
                gcongr
                exact Nat.lt_log2_self.le
            _ = 2 ^ (m'.log2 + 53) := by
                rw [← pow_add]
                congr 1
                omega
            _ ≤ 2 ^ (m.log2 + k) := Nat.pow_le_pow_right (by norm_num) hbits
            _ = 2 ^ m.log2 * 2 ^ k := pow_add _ _ _
            _ ≤ m * 2 ^ k := by
                gcongr
                exact Nat.log2_self_le hm.ne'

/-! ## Square roots -/

/-- What is left of a number after its square root was taken tells where the root lies. -/
theorem locates_sqrt (n : Nat) :
    Locates (Nat.sqrt n)
      (if n - Nat.sqrt n * Nat.sqrt n = 0 then .exact
        else .inexact (if n - Nat.sqrt n * Nat.sqrt n ≤ Nat.sqrt n then .lt else .gt))
      √(n : ℝ) := by
  have hbelow : Nat.sqrt n * Nat.sqrt n ≤ n := Nat.sqrt_le n
  have habove : n < (Nat.sqrt n + 1) * (Nat.sqrt n + 1) := Nat.lt_succ_sqrt n
  generalize Nat.sqrt n = r at *
  obtain ⟨rest, rfl⟩ := Nat.exists_eq_add_of_le hbelow
  rw [Nat.add_sub_cancel_left]
  push_cast
  have hr : (0 : ℝ) ≤ r := Nat.cast_nonneg r
  rcases Nat.eq_zero_or_pos rest with rfl | hpos
  · rw [if_pos rfl, Nat.cast_zero, add_zero]
    exact Real.sqrt_mul_self hr
  · have hrest : (1 : ℝ) ≤ rest := by exact_mod_cast hpos
    rw [if_neg hpos.ne']
    by_cases hhalf : rest ≤ r
    · have hhalf' : (rest : ℝ) ≤ r := by exact_mod_cast hhalf
      rw [if_pos hhalf]
      have hless : √((r : ℝ) * r + rest) < r + 1 / 2 := by
        rw [Real.sqrt_lt' (by linarith)]
        nlinarith
      constructor
      · exact Real.lt_sqrt_of_sq_lt (by nlinarith)
      · linarith
    · have hhalf' : (r : ℝ) + 1 ≤ rest := by exact_mod_cast not_le.mp hhalf
      have habove' : (r : ℝ) * r + rest < (r + 1) * (r + 1) := by exact_mod_cast habove
      have hmore : (r : ℝ) + 1 / 2 < √((r : ℝ) * r + rest) :=
        Real.lt_sqrt_of_sq_lt (by nlinarith)
      rw [if_neg hhalf]
      constructor
      · linarith
      · rw [Real.sqrt_lt' (by linarith)]
        nlinarith

/-- The square root of a float that is not negative. -/
theorem isRounded_sqrt {x : Float} (hx : x.isFinite) (hnonneg : 0 ≤ value x) :
    IsRounded x.sqrt √(value x) := by
  have hroot : x.sqrt = Float.ofModel (Float.Model.pack
      (UnpackedFloat.sqrt Format.binary64 x.toModel.unpack)) := rfl
  rw [hroot]
  rcases hnonneg.eq_or_lt with hzero | hpos
  · obtain ⟨s, hux⟩ := unpack_of_value_eq_zero hx hzero.symm
    rw [hux, ← hzero, Real.sqrt_zero]
    exact isRounded_of_value_eq (isFinite_zero _) (value_pack_zero _)
  · obtain ⟨m, e, hm, hux, hcanonical⟩ := unpack_of_pos hx hpos
    rw [hux, value_of_unpack hux]
    simp only [UnpackedFloat.sqrt, sqrtCore]
    generalize htarget : min (e.ediv 2) (Format.binary64.targetExponent
      ((totalExponent m e + 1).ediv 2)) = u
    have hhalf : u ≤ e.ediv 2 := htarget ▸ min_le_left _ _
    have hdouble : 2 * u ≤ e := by
      have hdiv : e.ediv 2 = e / 2 := rfl
      omega
    obtain ⟨k, hk⟩ := Int.eq_ofNat_of_zero_le (sub_nonneg.mpr hdouble)
    rw [hk, Int.toNat_natCast]
    refine isRounded_of_locates .positive _ ?_ ?_
    · have hunits : √((m : ℝ) * 2 ^ e) / 2 ^ u = √((m <<< k : Nat) : ℝ) := by
        have hsquare : (m : ℝ) * 2 ^ e = (m <<< k : Nat) * (2 ^ u) ^ 2 := by
          obtain rfl : e = k + (u + u) := by omega
          rw [Nat.shiftLeft_eq, zpow_add₀ (by norm_num), zpow_add₀ (by norm_num) u, zpow_natCast]
          push_cast
          ring
        have hpow : (0 : ℝ) < 2 ^ u := zpow_pos (by norm_num) u
        rw [hsquare, Real.sqrt_mul (Nat.cast_nonneg _), Real.sqrt_sq hpow.le,
          mul_div_cancel_right₀ _ hpow.ne']
      rw [hunits]
      exact locates_sqrt _
    · apply le_targetExponent
      rcases le_or_gt u (-1074) with hleast | hhigh
      · exact Or.inr hleast
      · have hbits : 104 ≤ m.log2 + k := by
          have hdiv : (totalExponent m e + 1).ediv 2 = (totalExponent m e + 1) / 2 := rfl
          rw [hdiv, targetExponent_eq, totalExponent] at htarget
          omega
        left
        rw [Nat.le_sqrt, Nat.shiftLeft_eq]
        calc 2 ^ 52 * 2 ^ 52 = 2 ^ 104 := by norm_num
          _ ≤ 2 ^ (m.log2 + k) := Nat.pow_le_pow_right (by norm_num) hbits
          _ = 2 ^ m.log2 * 2 ^ k := pow_add _ _ _
          _ ≤ m * 2 ^ k := by
              gcongr
              exact Nat.log2_self_le hm.ne'

/-! ## Counts -/

/-- A count as a float. -/
theorem isRounded_ofNat {n : Nat} (hn : n < 2 ^ 64) : IsRounded (Scalar.ofNat n) n := by
  have hrounded := isRounded_normalize n 0
  rw [zpow_zero, mul_one, Int.cast_natCast] at hrounded
  rw [ofNat_eq_pack hn]
  exact hrounded

/-- Counts of up to 53 bits are exact. -/
theorem value_ofNat {n : Nat} (hn : n < 2 ^ 53) :
    (Scalar.ofNat n : Float).isFinite ∧ value (Scalar.ofNat n) = n := by
  have hcount : IsRounded (Scalar.ofNat n) n := isRounded_ofNat (by omega)
  have hunits := magnitude_le_greatest (e := 0) hn (by norm_num)
  have hgrid := onGrid_mul_zpow (e := 0) hn.le (by norm_num)
  rw [zpow_zero, mul_one] at hunits hgrid
  have hle : |(n : ℝ)| ≤ greatest := by rwa [Nat.abs_cast]
  exact ⟨hcount.finite hle, hcount.eq hgrid hle⟩

/-- The share of a count in another is rounded once. -/
theorem isRounded_fraction {count total : Nat} (hle : count ≤ total) (htotal : total < 2 ^ 53) :
    IsRounded (Scalar.fraction count total) (count / total) := by
  unfold Scalar.fraction
  split
  next hnone =>
    refine isRounded_of_value_eq (by rfl) ?_
    rw [value_zero, hnone, Nat.cast_zero, div_zero]
  next hsome =>
    obtain ⟨hcount, hvalue⟩ := value_ofNat (hle.trans_lt htotal)
    obtain ⟨hall, hvalue'⟩ := value_ofNat htotal
    have hquotient := isRounded_div hcount hall (by rw [hvalue']; exact Nat.cast_ne_zero.mpr hsome)
    rwa [hvalue, hvalue'] at hquotient

/-! ## Doubles -/

/-- What is less than `2 ^ 1023` does not overflow when it is doubled. -/
theorem two_mul_le_greatest {x : Float} (hx : x.isFinite) (hpos : 0 < value x)
    (hlt : value x < 2 ^ 1023) : 2 * value x ≤ greatest := by
  obtain ⟨m, e, hm, hunpack, hcanonical⟩ := unpack_of_pos hx hpos
  rw [value_of_unpack hunpack] at hlt ⊢
  have hexponent : e ≤ 970 := by
    by_contra hhigh
    -- the greatest exponent comes with a full mantissa
    have hlast : e = 971 := by
      have hle := hcanonical.exponent_le
      omega
    have hfull : 2 ^ 52 ≤ m := hcanonical.full.resolve_right (by omega)
    have hfull' : (2 : ℝ) ^ 52 ≤ m := by exact_mod_cast hfull
    have hlarge : (2 : ℝ) ^ 1023 ≤ m * 2 ^ e := by
      rw [two_pow_eq_full, hlast]
      gcongr
    exact absurd hlt hlarge.not_gt
  have hdouble : 2 * ((m : ℝ) * 2 ^ e) = m * 2 ^ (e + 1) := by
    rw [zpow_add_one₀ (by norm_num)]
    ring
  rw [hdouble]
  exact magnitude_le_greatest hcanonical.mantissa_lt (by omega)

/-- Doubling overflows from `2 ^ 1023` on. -/
theorem IsRounded.isFinite_double_iff {x y : Float} (h : IsRounded y (2 * value x))
    (hx : x.isFinite) (hpos : 0 < value x) : y.isFinite ↔ value x < 2 ^ 1023 := by
  constructor
  · intro hfinite
    by_contra hlarge
    have hbeyond : (2 : ℝ) ^ (1024 : ℤ) ≤ 2 * value x := by
      have hsplit : (2 : ℝ) ^ (1024 : ℤ) = 2 * 2 ^ 1023 := by
        rw [← zpow_natCast, ← zpow_one_add₀ (by norm_num)]
        norm_num
      rw [hsplit]
      exact mul_le_mul_of_nonneg_left (not_lt.mp hlarge) (by norm_num)
    have hreached := (h.nearest hfinite).le_of_ge (onGrid_zpow (by norm_num)) hbeyond
    have hbound := value_le_greatest hfinite
    exact absurd greatest_lt (hreached.trans hbound).not_gt
  · intro hlt
    refine h.finite ?_
    rw [abs_of_pos (by linarith)]
    exact two_mul_le_greatest hx hpos hlt

end ThermalSearch.Binary64
