import ThermalSearch.Proofs.Scalar.Overflow

/-!
# Rounding to nearest

A number that is rounded gets to the nearest float: no number with 53 bits is nearer to it (`Nearest`),
and only what is beyond the greatest float gets infinite (`IsRounded`). So rounding keeps the order of
numbers, and leaves those with 53 bits as they are.
-/

namespace ThermalSearch.Binary64

open Float.Model Float.Model.UnpackedFloat

/-! ## Mantissas -/

/-- Where a number lies between a mantissa and the next one, in units of the last bit: below, at or
above the half. -/
def Locates (m : Nat) : Accuracy → ℝ → Prop
  | .exact, w => w = m
  | .inexact .lt, w => m < w ∧ w + w < m + m + 1
  | .inexact .eq, w => w + w = m + m + 1
  | .inexact .gt, w => m + m + 1 < w + w ∧ w < m + 1

theorem Locates.bounds {m : Nat} {accuracy : Accuracy} {w : ℝ} (h : Locates m accuracy w) :
    m ≤ w ∧ w < m + 1 := by
  rcases accuracy with _ | ⟨_ | _ | _⟩ <;> simp only [Locates] at h <;> constructor <;> linarith

theorem Locates.round_error {m : Nat} {accuracy : Accuracy} {w : ℝ} (h : Locates m accuracy w) :
    |(accuracy.roundToNearestEven m : ℝ) - w| ≤ 1 / 2 := by
  rw [abs_le]
  rcases accuracy with _ | ⟨_ | _ | _⟩ <;>
    simp only [Locates, Accuracy.roundToNearestEven] at h ⊢
  · constructor <;> linarith
  · constructor <;> linarith
  · -- a tie goes to one side or the other
    have hparity : ((m % 2 : Nat) : ℝ) = 0 ∨ ((m % 2 : Nat) : ℝ) = 1 := by
      rcases Nat.mod_two_eq_zero_or_one m with hm | hm <;> simp [hm]
    push_cast at hparity ⊢
    rcases hparity with hm | hm <;> rw [hm] <;> constructor <;> linarith
  · push_cast
    constructor <;> linarith

/-- One bit less. -/
theorem locates_shiftRightOne {em : ExtendedMantissa} {w : ℝ}
    (h : Locates em.mantissa em.accuracy w) :
    Locates em.shiftRightOne.mantissa em.shiftRightOne.accuracy (w / 2) := by
  obtain ⟨m, round, sticky⟩ := em
  have hm : (m : ℝ) = 2 * (m / 2 : Nat) + (m % 2 : Nat) := by exact_mod_cast (Nat.div_add_mod m 2).symm
  unfold ExtendedMantissa.shiftRightOne
  dsimp only at h ⊢
  rcases Nat.mod_two_eq_zero_or_one m with hbit | hbit <;> rw [hbit] at hm ⊢ <;>
    push_cast at hm <;> cases round <;> cases sticky <;>
    simp only [ExtendedMantissa.accuracy, Locates] at h ⊢ <;>
    simp only [bne_self_eq_false, Bool.or_false, Bool.or_true, Bool.or_self,
      (by decide : ((1 : Nat) != 0) = true)] <;>
    first
      | linarith
      | (constructor <;> linarith)

theorem locates_shiftRight {m : Nat} {accuracy : Accuracy} {w : ℝ} (h : Locates m accuracy w)
    (k : Nat) :
    let em := ExtendedMantissa.ofMantissaAndAccuracy m accuracy >>> k
    Locates em.mantissa em.accuracy (w / 2 ^ k) := by
  induction k with
  | zero =>
    rw [pow_zero, div_one]
    rcases accuracy with _ | ⟨_ | _ | _⟩ <;> exact h
  | succ k ih =>
    rw [pow_succ, ← div_div]
    exact locates_shiftRightOne ih

/-! ## What a number is rounded to -/

/-- What comes of rounding, up to the sign: `r` units of the last bit that is kept. It takes no more
than 53 bits, and these are too few only where the exponent cannot be any less. -/
structure Kept (z : ℝ) (t : ℤ) (r : Nat) : Prop where
  least : -1074 ≤ t
  mantissa_le : r ≤ 2 ^ 53
  error : |(r : ℝ) - z / 2 ^ t| ≤ 1 / 2
  full : 2 ^ 52 ≤ r ∧ 2 ^ 52 * 2 ^ t ≤ z ∨ t = -1074

/-- With 53 bits, or down to the last unit there is, nothing is missing for rounding. -/
theorem le_targetExponent {m : Nat} {e : ℤ} (h : 2 ^ 52 ≤ m ∨ e ≤ -1074) :
    e ≤ Format.binary64.targetExponent (totalExponent m e) := by
  rw [targetExponent_eq, totalExponent]
  rcases h with hfull | hleast
  · have hlog : 52 ≤ m.log2 := (Nat.le_log2 (by omega)).mpr hfull
    omega
  · exact hleast.trans (le_max_right _ _)

theorem kept_of_locates {m : Nat} {e : ℤ} {accuracy : Accuracy} {z : ℝ}
    (hz : Locates m accuracy (z / 2 ^ e))
    (he : e ≤ Format.binary64.targetExponent (totalExponent m e)) :
    let shifted := shiftToTargetExponent Format.binary64 m e accuracy
    shifted.2 = Format.binary64.targetExponent (totalExponent m e) ∧
      Kept z shifted.2 shifted.1.roundedMantissa := by
  generalize ht : Format.binary64.targetExponent (totalExponent m e) = t at he
  obtain ⟨k, hk⟩ := Int.eq_ofNat_of_zero_le (sub_nonneg.mpr he)
  obtain rfl : t = e + k := by omega
  have hshift : shiftToTargetExponent Format.binary64 m e accuracy =
      (ExtendedMantissa.ofMantissaAndAccuracy m accuracy >>> k, e + k) := by
    unfold shiftToTargetExponent shiftToExponent
    dsimp only
    rw [ht, add_sub_cancel_left, Int.toNat_natCast]
  have hcut := locates_shiftRight hz k
  have hunits : z / 2 ^ e / 2 ^ k = z / 2 ^ (e + k) := by
    rw [div_div, zpow_add₀ (by norm_num), zpow_natCast]
  rw [hunits] at hcut
  have herror := hcut.round_error
  have hbelow := hcut.bounds.1
  have hbounds := roundedMantissa_bounds (ExtendedMantissa.ofMantissaAndAccuracy m accuracy >>> k)
  rw [mantissa_shiftRight, mantissa_ofMantissaAndAccuracy] at hbounds hbelow
  rw [hshift]
  refine ⟨rfl, ?_, ?_, herror, ?_⟩
  · rw [← ht]
    exact le_max_right _ _
  · have hlog : m.log2 ≤ 52 + k := by
      rw [targetExponent_eq, totalExponent] at ht
      omega
    have hcut53 : m / 2 ^ k < 2 ^ 53 := by
      rw [Nat.div_lt_iff_lt_mul (Nat.two_pow_pos k), ← pow_add]
      exact Nat.lt_log2_self.trans_le (Nat.pow_le_pow_right (by norm_num) (by omega))
    exact hbounds.2.trans hcut53
  · by_cases hleast : e + k = -1074
    · exact Or.inr hleast
    · have hlog : m.log2 = 52 + k := by
        rw [targetExponent_eq, totalExponent] at ht
        omega
      have hfull : 2 ^ 52 ≤ m / 2 ^ k := by
        rw [Nat.le_div_iff_mul_le (Nat.two_pow_pos k), ← pow_add, ← hlog]
        exact Nat.log2_self_le (by rintro rfl; rw [Nat.log2_zero] at hlog; omega)
      refine Or.inl ⟨hfull.trans hbounds.1, ?_⟩
      rw [← le_div_iff₀ (zpow_pos (by norm_num) _)]
      exact le_trans (by exact_mod_cast hfull) hbelow

/-- Units that fit in 53 bits are not shifted any more. -/
theorem shiftToTargetExponent_fits {r : Nat} {t : ℤ} (ht : -1074 ≤ t) (hr : r < 2 ^ 53) :
    shiftToTargetExponent Format.binary64 r t .exact =
      (ExtendedMantissa.ofMantissaAndAccuracy r .exact, t) := by
  have hlog : r.log2 ≤ 52 := by
    rcases Nat.eq_zero_or_pos r with rfl | hpos
    · rw [Nat.log2_zero]
      omega
    · have hlt := (Nat.log2_lt hpos.ne').mpr hr
      omega
  have hshift : (Format.binary64.targetExponent (totalExponent r t) - t).toNat = 0 := by
    rw [targetExponent_eq, totalExponent]
    omega
  unfold shiftToTargetExponent shiftToExponent
  dsimp only
  rw [hshift, Nat.cast_zero, add_zero]
  rfl

/-- A number is rounded to the units that are kept. If these fill one bit more, they are a power of
two, and lose it again. -/
theorem roundWithAccuracy_cases {m : Nat} {e : ℤ} {accuracy : Accuracy} {z : ℝ} (s : Sign)
    (hz : Locates m accuracy (z / 2 ^ e))
    (he : e ≤ Format.binary64.targetExponent (totalExponent m e)) :
    ∃ t r, Kept z t r ∧
      ((r = 0 ∧ roundWithAccuracy Format.binary64 s m e accuracy = .zero s) ∨
        (r < 2 ^ 53 ∧ ∃ hr, roundWithAccuracy Format.binary64 s m e accuracy =
          .finite s r t hr) ∨
        (r = 2 ^ 53 ∧ ∃ hr, roundWithAccuracy Format.binary64 s m e accuracy =
          .finite s (2 ^ 52) (t + 1) hr)) := by
  obtain ⟨-, hkept⟩ := kept_of_locates hz he
  refine ⟨_, _, hkept, ?_⟩
  unfold roundWithAccuracy
  generalize shiftToTargetExponent Format.binary64 m e accuracy = shifted at *
  obtain ⟨em, t⟩ := shifted
  dsimp only at hkept ⊢
  generalize em.roundedMantissa = r at *
  rcases Nat.eq_zero_or_pos r with rfl | hpos
  · refine Or.inl ⟨rfl, ?_⟩
    rw [shiftToTargetExponent_fits hkept.least (by norm_num)]
    exact dif_pos rfl
  · rcases hkept.mantissa_le.lt_or_eq with hfits | rfl
    · refine Or.inr (Or.inl ⟨hfits, hpos, ?_⟩)
      rw [shiftToTargetExponent_fits hkept.least hfits]
      exact dif_neg hpos.ne'
    · have hcarry : -1074 ≤ t + (1 : Nat) := by
        have hleast := hkept.least
        omega
      have hmantissa : (ExtendedMantissa.ofMantissaAndAccuracy (2 ^ 53) .exact >>> 1).mantissa =
          2 ^ 52 := by
        rw [mantissa_shiftRight, mantissa_ofMantissaAndAccuracy]
        norm_num
      refine Or.inr (Or.inr ⟨rfl, by norm_num, ?_⟩)
      rw [shiftToTargetExponent_full (k := 1) Nat.log2_two_pow hcarry]
      simp only [hmantissa, Nat.cast_one]
      exact dif_neg (by norm_num)

/-! ## Packing -/

/-- Packing keeps a number below the normal range, too. -/
theorem unpack_pack_subnormal {m : Nat} (s : Sign) (hm : 0 < m) (hlt : m < 2 ^ 52) :
    (Float.Model.pack (.finite s m (-1074) hm)).unpack = .finite s m (-1074) hm := by
  have hlog : m.log2 < 52 := (Nat.log2_lt hm.ne').mpr hlt
  have hmantissa : (BitVec.ofNat 52 m).toNat = m := by
    rw [BitVec.toNat_ofNat]
    exact Nat.mod_eq_of_lt hlt
  have hnonzero : BitVec.ofNat 52 m ≠ 0#52 := by
    intro hzero
    rw [hzero] at hmantissa
    exact hm.ne hmantissa
  unfold Float.Model.unpack Float.Model.pack
  simp only [UnpackedFloat.pack, Format.exponentBias, Format.mantissaBits]
  norm_num
  rw [if_neg (by omega)]
  unfold UnpackedFloat.unpack
  simp only [unpackExponent_packComponents, unpackMantissa_packComponents,
    unpackSign_packComponents, Sign.ofBitVec_toBitVec]
  rw [if_neg (by decide), if_pos trivial, dif_neg hnonzero]
  simp only [hmantissa]
  norm_num [Format.exponentBias]

theorem unpack_pack_canonical {m : Nat} {e : ℤ} (s : Sign) (hm : 0 < m) (h : Canonical m e) :
    (Float.Model.pack (.finite s m e hm)).unpack = .finite s m e hm := by
  by_cases hfull : 2 ^ 52 ≤ m
  · exact unpack_pack_normal s hm hfull h.mantissa_lt h.exponent_ge h.exponent_le
  · obtain rfl : e = -1074 := h.full.resolve_left hfull
    exact unpack_pack_subnormal s hm (not_le.mp hfull)

/-- A number beyond the greatest float gets infinite. -/
theorem not_isFinite_pack {m : Nat} {e : ℤ} (s : Sign) (hm : 0 < m) (he : 972 ≤ e) :
    ¬ (Float.ofModel (Float.Model.pack (.finite s m e hm))).isFinite := by
  have hover : 2 ^ 11 ≤ (e + Format.binary64.exponentBias + (52 : Nat)).toNat + 1 := by
    norm_num [Format.exponentBias]
    omega
  have hpack : UnpackedFloat.pack Format.binary64 (.finite s m e hm) =
      packedInfinity Format.binary64 s := if_pos hover
  have hinfinite : Float.ofModel (Float.Model.pack (.finite s m e hm)) = infinite s := by
    rw [← pack_infinite]
    unfold Float.Model.pack
    simp only [hpack]
    rfl
  rw [hinfinite]
  cases s <;> decide

/-! ## Numbers with 53 bits -/

/-- A number that a float could hold, were there no greatest exponent. -/
inductive OnGrid (c : ℝ) : Prop
  | of (n e : ℤ) (bits : |n| ≤ 2 ^ 53) (exponent : -1074 ≤ e) (eq : c = n * 2 ^ e)

theorem OnGrid.neg {c : ℝ} (h : OnGrid c) : OnGrid (-c) := by
  obtain ⟨n, e, hn, he, rfl⟩ := h
  refine ⟨-n, e, by rwa [abs_neg], he, ?_⟩
  push_cast
  ring

theorem onGrid_zero : OnGrid 0 := ⟨0, 0, by norm_num, by norm_num, by norm_num⟩

theorem onGrid_mul_zpow {n : Nat} {e : ℤ} (hn : n ≤ 2 ^ 53) (he : -1074 ≤ e) :
    OnGrid (n * 2 ^ e) := by
  refine ⟨n, e, ?_, he, by rw [Int.cast_natCast]⟩
  rw [Nat.abs_cast]
  exact_mod_cast hn

theorem onGrid_zpow {e : ℤ} (he : -1074 ≤ e) : OnGrid (2 ^ e) := by
  have hunit := onGrid_mul_zpow (n := 1) (by norm_num) he
  rwa [Nat.cast_one, one_mul] at hunit

/-- There is a least positive number. -/
theorem OnGrid.least_le {c : ℝ} (h : OnGrid c) (hpos : 0 < c) : 2 ^ (-1074 : ℤ) ≤ c := by
  obtain ⟨n, e, -, he, rfl⟩ := h
  have hn : 0 < n := by
    have hn' := pos_of_mul_pos_left hpos (zpow_nonneg (by norm_num) e)
    exact_mod_cast hn'
  have hn1 : (1 : ℝ) ≤ n := by exact_mod_cast hn
  have hunit : (2 : ℝ) ^ (-1074 : ℤ) ≤ 2 ^ e := zpow_le_zpow_right₀ (by norm_num) he
  calc (2 : ℝ) ^ (-1074 : ℤ) ≤ 2 ^ e := hunit
    _ = 1 * 2 ^ e := (one_mul _).symm
    _ ≤ n * 2 ^ e := by gcongr

/-- A number on the grid is a multiple of a unit, unless 52 bits of the unit are more than it. -/
theorem OnGrid.multiple_or_le {c : ℝ} (h : OnGrid c) (t : ℤ) :
    (∃ k : ℤ, c = k * 2 ^ t) ∨ -1074 < t ∧ c ≤ 2 ^ 52 * 2 ^ t := by
  obtain ⟨n, e, hn, he, rfl⟩ := h
  rcases le_or_gt t e with hcoarse | hfine
  · obtain ⟨k, hk⟩ := Int.eq_ofNat_of_zero_le (sub_nonneg.mpr hcoarse)
    obtain rfl : e = k + t := by omega
    refine Or.inl ⟨n * 2 ^ k, ?_⟩
    rw [zpow_add₀ (by norm_num), zpow_natCast]
    push_cast
    ring
  · have hn' : (n : ℝ) ≤ 2 ^ 53 := by exact_mod_cast (abs_le.mp hn).2
    have hstep : (2 : ℝ) ^ (e + 1) ≤ 2 ^ t := zpow_le_zpow_right₀ (by norm_num) hfine
    refine Or.inr ⟨by omega, ?_⟩
    calc (n : ℝ) * 2 ^ e ≤ 2 ^ 53 * 2 ^ e := by gcongr
      _ = 2 ^ 52 * 2 ^ (e + 1) := by
        rw [zpow_add_one₀ (by norm_num)]
        ring
      _ ≤ 2 ^ 52 * 2 ^ t := by gcongr

/-- Numbers on the grid are no nearer to a number that needs 53 bits than one of its units. -/
theorem OnGrid.unit_le {m : Nat} {e : ℤ} {c : ℝ} (hlow : 2 ^ 52 < m) (h : OnGrid c)
    (hne : c ≠ m * 2 ^ e) : 2 ^ e ≤ |c - m * 2 ^ e| := by
  have hunit : (0 : ℝ) < 2 ^ e := zpow_pos (by norm_num) e
  rcases h.multiple_or_le e with ⟨k, rfl⟩ | ⟨-, hbelow⟩
  · have hdifference : (k : ℝ) * 2 ^ e - m * 2 ^ e = (k - m : ℤ) * 2 ^ e := by
      push_cast
      ring
    have hnonzero : (k - m : ℤ) ≠ 0 := by
      intro hzero
      rw [hzero, Int.cast_zero, zero_mul] at hdifference
      exact hne (sub_eq_zero.mp hdifference)
    have hone : (1 : ℝ) ≤ |((k - m : ℤ) : ℝ)| := by
      exact_mod_cast Int.one_le_abs hnonzero
    rw [hdifference, abs_mul, abs_of_pos hunit]
    exact le_mul_of_one_le_left hunit.le hone
  · have hm : (2 : ℝ) ^ 52 + 1 ≤ m := by exact_mod_cast hlow
    have habove : (2 ^ 52 + 1) * (2 : ℝ) ^ e ≤ m * 2 ^ e := by gcongr
    rw [abs_sub_comm]
    refine le_trans ?_ (le_abs_self _)
    linarith

/-- A number with a sign. -/
def signed (s : Sign) (z : ℝ) : ℝ :=
  match s with
  | .positive => z
  | .negative => -z

theorem OnGrid.signed {c : ℝ} (h : OnGrid c) (s : Sign) : OnGrid (signed s c) := by
  cases s with
  | positive => exact h
  | negative => exact h.neg

@[simp] theorem signed_signed (s : Sign) (z : ℝ) : signed s (signed s z) = z := by
  cases s <;> simp [signed]

@[simp] theorem abs_signed (s : Sign) (z : ℝ) : |signed s z| = |z| := by
  cases s <;> simp [signed]

theorem abs_signed_sub (s : Sign) (y z : ℝ) : |signed s y - signed s z| = |y - z| := by
  cases s with
  | positive => rfl
  | negative =>
    rw [signed, signed, neg_sub_neg]
    exact abs_sub_comm z y

theorem value_of_finite {x : Float} {s : Sign} {m : Nat} {e : ℤ} {hm : 0 < m}
    (h : x.toModel.unpack = .finite s m e hm) : value x = signed s (m * 2 ^ e) := by
  have hread : unpackedValue x.toModel.unpack = unpackedValue (.finite s m e hm) := by rw [h]
  rw [value, hread]
  cases s <;> simp [unpackedValue, signed]

theorem value_of_zero {x : Float} {s : Sign} (h : x.toModel.unpack = .zero s) : value x = 0 := by
  have hread : unpackedValue x.toModel.unpack = 0 := by rw [h]; rfl
  rw [value, hread, Rat.cast_zero]

/-- Only zeros stand for zero. -/
theorem unpack_of_value_eq_zero {x : Float} (hx : x.isFinite) (h : value x = 0) :
    ∃ s, x.toModel.unpack = .zero s := by
  rcases unpack_of_finite hx with hzero | ⟨s, m, e, hm, hunpack, -⟩
  · exact hzero
  · have hpos : (0 : ℝ) < m * 2 ^ e := by positivity
    rw [value_of_finite hunpack, ← abs_eq_zero, abs_signed, abs_of_pos hpos] at h
    exact absurd h hpos.ne'

theorem onGrid_value {x : Float} (hx : x.isFinite) : OnGrid (value x) := by
  rcases unpack_of_finite hx with ⟨s, hzero⟩ | ⟨s, m, e, hm, hunpack, hcanonical⟩
  · rw [value_of_zero hzero]
    exact onGrid_zero
  · rw [value_of_finite hunpack]
    refine OnGrid.signed ⟨m, e, ?_, hcanonical.exponent_ge, by push_cast; rfl⟩ s
    rw [Nat.abs_cast]
    exact_mod_cast hcanonical.mantissa_lt.le

theorem abs_value_le_greatest {x : Float} (hx : x.isFinite) : |value x| ≤ greatest := by
  rcases unpack_of_finite hx with ⟨s, hzero⟩ | ⟨s, m, e, hm, hunpack, hcanonical⟩
  · rw [value_of_zero hzero, abs_zero]
    exact (zpow_pos (by norm_num) 0).le.trans (zpow_lt_greatest (by norm_num : (0 : ℤ) ≤ 1023)).le
  · rw [value_of_finite hunpack, abs_signed, abs_of_nonneg (by positivity)]
    exact magnitude_le_greatest hcanonical.mantissa_lt hcanonical.exponent_le

theorem value_le_greatest {x : Float} (hx : x.isFinite) : value x ≤ greatest :=
  (abs_le.mp (abs_value_le_greatest hx)).2

theorem value_pack {m : Nat} {e : ℤ} (s : Sign) (hm : 0 < m) (h : Canonical m e) :
    value (Float.ofModel (Float.Model.pack (.finite s m e hm))) = signed s (m * 2 ^ e) :=
  value_of_finite (unpack_pack_canonical s hm h)

theorem value_pack_zero (s : Sign) : value (Float.ofModel (Float.Model.pack (.zero s))) = 0 := by
  refine value_of_zero (s := s) ?_
  cases s <;> rfl

theorem unpack_neg {x : Float} (hx : x.isFinite) : (-x).toModel.unpack = x.toModel.unpack.neg := by
  have hneg : -x = Float.ofModel (Float.Model.pack x.toModel.unpack.neg) := rfl
  rw [hneg]
  rcases unpack_of_finite hx with ⟨s, hunpack⟩ | ⟨s, m, e, hm, hunpack, hcanonical⟩ <;> rw [hunpack]
  · cases s <;> rfl
  · exact unpack_pack_canonical (-s) hm hcanonical

theorem value_neg {x : Float} (hx : x.isFinite) : value (-x) = -value x := by
  have hneg := unpack_neg hx
  rcases unpack_of_finite hx with ⟨s, hunpack⟩ | ⟨s, m, e, hm, hunpack, -⟩ <;> rw [hunpack] at hneg
  · rw [value_of_zero hunpack, value_of_zero hneg, neg_zero]
  · rw [value_of_finite hunpack, value_of_finite hneg]
    cases s with
    | positive => rfl
    | negative => exact (neg_neg _).symm

/-- A finite float above zero. -/
structure Positive (x : Float) : Prop where
  finite : x.isFinite
  pos : 0 < value x

theorem positive_iff {x : Float} : Positive x ↔ x.isFinite ∧ 0.0 < x := by
  constructor
  · intro h
    refine ⟨h.finite, ?_⟩
    rw [lt_iff_value_lt (by rfl) h.finite, value_zero]
    exact h.pos
  · rintro ⟨hfinite, hpos⟩
    rw [lt_iff_value_lt (by rfl) hfinite, value_zero] at hpos
    exact ⟨hfinite, hpos⟩

/-- Checks of what has to be positive refuse what is at most zero. -/
theorem positive_of_accepted {x : Float} (hfinite : Scalar.isFinite x = true) (hpos : ¬ x ≤ 0.0) :
    Positive x := by
  refine ⟨hfinite, ?_⟩
  rw [le_iff_value_le hfinite (by rfl), value_zero] at hpos
  exact not_le.mp hpos

theorem Positive.zero_lt {x : Float} (h : Positive x) : 0.0 < x := (positive_iff.mp h).2

/-- What lies between floats above zero is one. -/
theorem Positive.of_between {lo x hi : Float} (hlo : Positive lo) (hhi : Positive hi)
    (h : lo < x) (h' : x < hi) : Positive x := by
  have hx : x.isFinite := isFinite_of_strictly_between hlo.finite hhi.finite h h'
  exact ⟨hx, hlo.pos.trans ((lt_iff_value_lt hlo.finite hx).mp h)⟩

/-! ## Nearest floats -/

/-- A float that no number with 53 bits is nearer to the given number than. -/
structure Nearest (x : Float) (z : ℝ) : Prop where
  finite : x.isFinite
  le : ∀ c, OnGrid c → |value x - z| ≤ |c - z|
  error : |value x - z| ≤ max (2 ^ (-53 : ℤ) * |z|) (2 ^ (-1075 : ℤ))

/-- What a number is rounded to: the nearest float, unless it is beyond the greatest. -/
structure IsRounded (x : Float) (z : ℝ) : Prop where
  finite : |z| ≤ greatest → x.isFinite
  nearest : x.isFinite → Nearest x z

/-- No integer is nearer than one that is at most a half away. -/
theorem abs_sub_le_of_half {r c w : ℝ} (hr : |r - w| ≤ 1 / 2) {n : ℤ} (hc : c - r = n) :
    |r - w| ≤ |c - w| := by
  rcases eq_or_ne n 0 with rfl | hn
  · have hsame : c = r := by
      rw [Int.cast_zero] at hc
      linarith
    rw [hsame]
  · have hone : (1 : ℝ) ≤ |c - r| := by
      rw [hc]
      exact_mod_cast Int.one_le_abs hn
    have htriangle : |c - r| ≤ |c - w| + |r - w| := by
      have hsplit : c - r = (c - w) - (r - w) := by ring
      rw [hsplit]
      exact abs_sub _ _
    linarith

/-- A distance in units. -/
theorem abs_sub_of_units (z : ℝ) (t : ℤ) (c : ℝ) : |c * 2 ^ t - z| = |c - z / 2 ^ t| * 2 ^ t := by
  have hunit : (0 : ℝ) < 2 ^ t := zpow_pos (by norm_num) t
  have hscaled : c * 2 ^ t - z = (c - z / 2 ^ t) * 2 ^ t := by
    field_simp
  rw [hscaled, abs_mul, abs_of_pos hunit]

namespace Kept

variable {z : ℝ} {t : ℤ} {r : Nat}

theorem abs_sub (h : Kept z t r) : |(r : ℝ) * 2 ^ t - z| ≤ 2 ^ t / 2 := by
  have herror := h.error
  rw [abs_sub_of_units]
  calc |(r : ℝ) - z / 2 ^ t| * 2 ^ t ≤ 1 / 2 * 2 ^ t := by gcongr
    _ = 2 ^ t / 2 := by ring

/-- Of the multiples of the last unit, none is nearer. -/
theorem le_of_multiple (h : Kept z t r) (n : ℤ) : |(r : ℝ) * 2 ^ t - z| ≤ |n * 2 ^ t - z| := by
  have hinteger : |(r : ℝ) - z / 2 ^ t| ≤ |(n : ℝ) - z / 2 ^ t| :=
    abs_sub_le_of_half (n := n - r) h.error (by push_cast; rfl)
  rw [abs_sub_of_units, abs_sub_of_units]
  gcongr

/-- Numbers with smaller units are below all numbers that need 53 bits of the last unit. -/
theorem le (h : Kept z t r) {c : ℝ} (hc : OnGrid c) : |(r : ℝ) * 2 ^ t - z| ≤ |c - z| := by
  rcases hc.multiple_or_le t with ⟨k, rfl⟩ | ⟨hexponent, hbelow⟩
  · exact h.le_of_multiple k
  · have hfull : 2 ^ 52 * 2 ^ t ≤ z := (h.full.resolve_right hexponent.ne').2
    calc |(r : ℝ) * 2 ^ t - z| ≤ |((2 ^ 52 : ℤ) : ℝ) * 2 ^ t - z| := h.le_of_multiple _
      _ = z - 2 ^ 52 * 2 ^ t := by
        rw [Int.cast_pow, Int.cast_ofNat, abs_sub_comm, abs_of_nonneg (by linarith)]
      _ ≤ z - c := by linarith
      _ ≤ |c - z| := by
        rw [abs_sub_comm]
        exact le_abs_self _

theorem error_le (h : Kept z t r) :
    |(r : ℝ) * 2 ^ t - z| ≤ max (2 ^ (-53 : ℤ) * |z|) (2 ^ (-1075 : ℤ)) := by
  refine h.abs_sub.trans ?_
  rcases h.full with ⟨-, hfull⟩ | rfl
  · refine le_max_of_le_left ?_
    calc (2 : ℝ) ^ t / 2 = 2 ^ (-53 : ℤ) * (2 ^ 52 * 2 ^ t) := by
          norm_num
          ring
      _ ≤ 2 ^ (-53 : ℤ) * |z| := by
        gcongr
        exact hfull.trans (le_abs_self z)
  · refine le_max_of_le_right (le_of_eq ?_)
    rw [div_eq_mul_inv, ← zpow_sub_one₀ (by norm_num)]
    norm_num

/-- What has too great an exponent comes from beyond the greatest float. -/
theorem greatest_lt (h : Kept z t r) (hover : 972 ≤ t ∨ (r = 2 ^ 53 ∧ 971 ≤ t)) :
    greatest < z := by
  have habove : (2 ^ 53 - 1 / 2) * (2 : ℝ) ^ (971 : ℤ) ≤ z := by
    rcases hover with hover | ⟨rfl, hover⟩
    · have hpow : (2 : ℝ) ^ (971 : ℤ) * 2 ≤ 2 ^ t := by
        rw [← zpow_add_one₀ (by norm_num)]
        exact zpow_le_zpow_right₀ (by norm_num) hover
      have hfull : 2 ^ 52 * 2 ^ t ≤ z := (h.full.resolve_right (by omega)).2
      have hpos : (0 : ℝ) < 2 ^ (971 : ℤ) := zpow_pos (by norm_num) _
      generalize (2 : ℝ) ^ (971 : ℤ) = unit at *
      linarith
    · have hpow : (2 : ℝ) ^ (971 : ℤ) ≤ 2 ^ t := zpow_le_zpow_right₀ (by norm_num) hover
      have hbelow := (abs_le.mp h.abs_sub).2
      push_cast at hbelow
      linarith
  have hpos : (0 : ℝ) < 2 ^ (971 : ℤ) := zpow_pos (by norm_num) _
  rw [greatest_eq]
  generalize (2 : ℝ) ^ (971 : ℤ) = unit at *
  linarith

end Kept

/-- A number is rounded to zero, to a float that is not zero, or beyond the greatest float. -/
theorem pack_roundWithAccuracy_cases {m : Nat} {e : ℤ} {accuracy : Accuracy} {z : ℝ} (s : Sign)
    (hz : Locates m accuracy (z / 2 ^ e))
    (he : e ≤ Format.binary64.targetExponent (totalExponent m e)) :
    let x := Float.ofModel (Float.Model.pack (roundWithAccuracy Format.binary64 s m e accuracy))
    ∃ t r, Kept z t r ∧
      ((r = 0 ∧ x = Float.ofModel (Float.Model.pack (.zero s))) ∨
        (0 < r ∧ x.isFinite ∧ value x = signed s (r * 2 ^ t)) ∨
        (¬ x.isFinite ∧ greatest < z)) := by
  obtain ⟨t, r, hkept, hround⟩ := roundWithAccuracy_cases s hz he
  intro x
  refine ⟨t, r, hkept, ?_⟩
  have hleast := hkept.least
  rcases hround with ⟨hzero, hround⟩ | ⟨hfits, hpos, hround⟩ | ⟨hfull, hpos, hround⟩
  · exact Or.inl ⟨hzero, congrArg (fun a => Float.ofModel (Float.Model.pack a)) hround⟩
  · right
    simp only [x, hround]
    rcases le_or_gt t 971 with hlow | hover
    · have hcanonical : Canonical r t := ⟨hfits, hlow, hleast, hkept.full.imp_left And.left⟩
      exact Or.inl ⟨hpos, (onSide_pack s hpos).2 hlow, value_pack s hpos hcanonical⟩
    · exact Or.inr ⟨not_isFinite_pack s hpos hover, hkept.greatest_lt (Or.inl hover)⟩
  · right
    simp only [x, hround]
    rcases le_or_gt (t + 1) 971 with hlow | hover
    · have hcanonical : Canonical (2 ^ 52) (t + 1) :=
        ⟨by norm_num, hlow, by omega, Or.inl (Nat.le_refl _)⟩
      refine Or.inl ⟨by omega, (onSide_pack s hpos).2 hlow, ?_⟩
      rw [value_pack s hpos hcanonical, hfull, zpow_add_one₀ (by norm_num)]
      congr 1
      push_cast
      ring
    · exact Or.inr ⟨not_isFinite_pack s hpos hover,
        hkept.greatest_lt (Or.inr ⟨hfull, by omega⟩)⟩

theorem isRounded_of_locates {m : Nat} {e : ℤ} {z : ℝ} (s : Sign) (accuracy : Accuracy)
    (hz : Locates m accuracy (z / 2 ^ e))
    (he : e ≤ Format.binary64.targetExponent (totalExponent m e)) :
    IsRounded (Float.ofModel (Float.Model.pack
      (roundWithAccuracy Format.binary64 s m e accuracy))) (signed s z) := by
  obtain ⟨t, r, hkept, hround⟩ := pack_roundWithAccuracy_cases s hz he
  generalize Float.ofModel (Float.Model.pack
    (roundWithAccuracy Format.binary64 s m e accuracy)) = x at hround ⊢
  have hrounded (hx : x.isFinite) (hvalue : value x = signed s (r * 2 ^ t)) :
      IsRounded x (signed s z) := by
    refine ⟨fun _ => hx, fun _ => ⟨hx, ?_, ?_⟩⟩
    · intro c hc
      have hsame : |c - signed s z| = |signed s c - z| := by
        rw [← abs_signed_sub s, signed_signed]
      rw [hvalue, abs_signed_sub, hsame]
      exact hkept.le (hc.signed s)
    · rw [hvalue, abs_signed_sub, abs_signed]
      exact hkept.error_le
  rcases hround with ⟨rfl, rfl⟩ | ⟨-, hfinite, hvalue⟩ | ⟨hinfinite, hover⟩
  · refine hrounded (isFinite_zero s) ?_
    rw [value_pack_zero, Nat.cast_zero, zero_mul]
    cases s <;> simp [signed]
  · exact hrounded hfinite hvalue
  · refine ⟨fun hz => absurd hz (not_le.mpr ?_), fun hx => absurd hx hinfinite⟩
    rw [abs_signed]
    exact hover.trans_le (le_abs_self z)

/-! ## Comparing with numbers on the grid -/

/-- Around a number in the normal range there is a gap on the grid. -/
theorem Normal.gap {x : Float} (h : Normal x) {c : ℝ} (hc : OnGrid c) (hne : c ≠ value x) :
    2 ^ (-53 : ℤ) * value x ≤ |c - value x| := by
  obtain ⟨m, e, hm, hunpack, hfull, hcanonical⟩ := h.unpack
  -- a power of two counts as the end of the numbers below it, where the gap is narrower
  obtain ⟨m', e', hvalue, hlow, hhigh⟩ :
      ∃ (m' : Nat) (e' : ℤ), value x = m' * 2 ^ e' ∧ 2 ^ 52 < m' ∧ m' ≤ 2 ^ 53 := by
    rw [value_of_unpack hunpack]
    rcases hfull.lt_or_eq with hlow | heq
    · exact ⟨m, e, rfl, hlow, hcanonical.mantissa_lt.le⟩
    · refine ⟨2 ^ 53, e - 1, ?_, by norm_num, Nat.le_refl _⟩
      rw [← heq, zpow_sub_one₀ (by norm_num)]
      push_cast
      ring
  have hm' : (m' : ℝ) ≤ 2 ^ 53 := by exact_mod_cast hhigh
  rw [hvalue] at hne ⊢
  calc (2 : ℝ) ^ (-53 : ℤ) * (m' * 2 ^ e') ≤ 2 ^ (-53 : ℤ) * (2 ^ 53 * 2 ^ e') := by gcongr
    _ = 2 ^ e' := by
      rw [← mul_assoc, ← zpow_natCast, ← zpow_add₀ (by norm_num)]
      norm_num
    _ ≤ |c - m' * 2 ^ e'| := hc.unit_le hlow hne

/-- So there is around a negative one. -/
theorem gap_of_abs {x : Float} (hx : x.isFinite) (hnormal : leastNormal ≤ |value x|) {c : ℝ}
    (hc : OnGrid c) (hne : c ≠ value x) : 2 ^ (-53 : ℤ) * |value x| ≤ |c - value x| := by
  rcases le_total 0 (value x) with hnonneg | hnonpos
  · rw [abs_of_nonneg hnonneg] at hnormal ⊢
    exact Normal.gap ⟨hx, hnormal⟩ hc hne
  · rw [abs_of_nonpos hnonpos] at hnormal ⊢
    rw [← value_neg hx] at hnormal
    have hgap := Normal.gap ⟨isFinite_neg hx, hnormal⟩ hc.neg (by rwa [value_neg hx, ne_eq, neg_inj])
    rwa [value_neg hx, neg_sub_neg, abs_sub_comm] at hgap

namespace Nearest

variable {x : Float} {c z : ℝ}

/-- What is on the grid is not rounded. -/
theorem eq (h : Nearest x z) (hz : OnGrid z) : value x = z := by
  have hzero := h.le z hz
  rw [sub_self, abs_zero, abs_nonpos_iff] at hzero
  exact sub_eq_zero.mp hzero

/-- Rounding does not go up past a number on the grid. -/
theorem le_of_le (h : Nearest x z) (hc : OnGrid c) (hz : z ≤ c) : value x ≤ c := by
  have hnearer := h.le c hc
  rw [abs_of_nonneg (sub_nonneg.mpr hz)] at hnearer
  linarith [le_abs_self (value x - z)]

/-- Nor down. -/
theorem le_of_ge (h : Nearest x z) (hc : OnGrid c) (hz : c ≤ z) : c ≤ value x := by
  have hnearer := h.le c hc
  rw [abs_of_nonpos (sub_nonpos.mpr hz)] at hnearer
  linarith [neg_abs_le (value x - z)]

/-- Nor towards zero. -/
theorem le_abs (h : Nearest x z) (hc : OnGrid c) (hz : c ≤ |z|) : c ≤ |value x| := by
  rcases abs_cases z with ⟨hsize, -⟩ | ⟨hsize, -⟩
  · exact (h.le_of_ge hc (hsize ▸ hz)).trans (le_abs_self _)
  · rw [hsize] at hz
    exact (le_neg_of_le_neg (h.le_of_le hc.neg (le_neg_of_le_neg hz))).trans (neg_le_abs _)

end Nearest

namespace IsRounded

variable {x : Float} {c z : ℝ}

theorem eq (h : IsRounded x z) (hz : OnGrid z) (hle : |z| ≤ greatest) : value x = z :=
  (h.nearest (h.finite hle)).eq hz

/-- What is between two floats stays there. -/
theorem between {a b : ℝ} (h : IsRounded x z) (ha : OnGrid a) (hb : OnGrid b) (ha' : -greatest ≤ a)
    (hb' : b ≤ greatest) (haz : a ≤ z) (hzb : z ≤ b) :
    x.isFinite ∧ a ≤ value x ∧ value x ≤ b := by
  have hfinite : x.isFinite := h.finite (abs_le.mpr ⟨ha'.trans haz, hzb.trans hb'⟩)
  have hnearest : Nearest x z := h.nearest hfinite
  exact ⟨hfinite, hnearest.le_of_ge ha haz, hnearest.le_of_le hb hzb⟩

/-- What is small enough stays so. -/
theorem bounded (h : IsRounded x z) (hc : OnGrid c) (hle : c ≤ greatest) (hz : |z| ≤ c) :
    x.isFinite ∧ |value x| ≤ c := by
  obtain ⟨hlow, hhigh⟩ := abs_le.mp hz
  obtain ⟨hfinite, hvalue⟩ := h.between hc.neg hc (neg_le_neg hle) hle hlow hhigh
  exact ⟨hfinite, abs_le.mpr hvalue⟩

end IsRounded

theorem isRounded_of_value_eq {x : Float} {z : ℝ} (hx : x.isFinite) (h : value x = z) :
    IsRounded x z := by
  have hsame : |value x - z| = 0 := by rw [h, sub_self, abs_zero]
  refine ⟨fun _ => hx, fun _ => ⟨hx, ?_, ?_⟩⟩
  · intro c _
    rw [hsame]
    exact abs_nonneg _
  · rw [hsame]
    positivity

end ThermalSearch.Binary64
