import Mathlib
import ThermalSearch.Proofs.Scalar.FiniteOrder

/-!
# Numbers in binary floating point

A finite float stands for a number (`value`), and floats are ordered as their numbers are
(`lt_iff_value_lt`). A number is packed into the bits of a float: in the normal range nothing is lost,
and above it there is only infinity (`pack_cases`).
-/

namespace ThermalSearch.Binary64

open Float.Model Float.Model.UnpackedFloat

/-- The number that stands in a finite float; zero for one that is not finite. -/
def unpackedValue : UnpackedFloat → ℚ
  | .finite .positive m e _ => m * 2 ^ e
  | .finite .negative m e _ => -(m * 2 ^ e)
  | _ => 0

/-- The same number, as a real one. -/
noncomputable def value (x : Float) : ℝ := unpackedValue x.toModel.unpack

/-- A mantissa fits in its 53 bits, and fills them unless the exponent is the least one. -/
structure Canonical (m : Nat) (e : ℤ) : Prop where
  mantissa_lt : m < 2 ^ 53
  exponent_le : e ≤ 971
  exponent_ge : -1074 ≤ e
  full : 2 ^ 52 ≤ m ∨ e = -1074

theorem canonical_of_unpack {x : Float.Model} {s : Sign} {m : Nat} {e : ℤ} {hm : 0 < m}
    (h : x.unpack = .finite s m e hm) : Canonical m e := by
  have hexponent := (@unpackExponent Format.binary64 x.toBits.toBitVec).isLt
  have hmantissa := (@unpackMantissa Format.binary64 x.toBits.toBitVec).isLt
  unfold Float.Model.unpack UnpackedFloat.unpack at h
  dsimp only at h
  split at h
  · split at h <;> cases h
  · next hfinite =>
    have htop : (@unpackExponent Format.binary64 x.toBits.toBitVec).toNat ≠ 2047 :=
      fun h => hfinite (BitVec.eq_of_toNat_eq h)
    split at h
    · next hleast =>
      split at h
      · cases h
      · cases h
        rw [hleast]
        norm_num [Format.exponentBias] at hmantissa ⊢
        exact ⟨by omega, by omega, by omega, Or.inr rfl⟩
    · next hnormal =>
      have hpos : (@unpackExponent Format.binary64 x.toBits.toBitVec).toNat ≠ 0 :=
        fun h => hnormal (BitVec.eq_of_toNat_eq h)
      cases h
      have hfull : (1#1 ++ @unpackMantissa Format.binary64 x.toBits.toBitVec).toNat =
          2 ^ 52 + (@unpackMantissa Format.binary64 x.toBits.toBitVec).toNat := by
        rw [BitVec.toNat_append, ← Nat.shiftLeft_add_eq_or_of_lt hmantissa]
        rfl
      rw [hfull]
      norm_num [Format.exponentBias] at hexponent hmantissa ⊢
      exact ⟨by omega, by omega, by omega, Or.inl (by omega)⟩
/-- A finite float is zero, or a canonical number with a sign. -/
theorem unpack_of_finite {x : Float} (hx : x.isFinite) :
    (∃ s, x.toModel.unpack = .zero s) ∨
      ∃ s m e hm, x.toModel.unpack = .finite s m e hm ∧ Canonical m e := by
  have hx' : x.toModel.unpack.isFinite := hx
  cases hunpack : x.toModel.unpack with
  | infinity s => simp [hunpack, UnpackedFloat.isFinite] at hx'
  | notANumber => simp [hunpack, UnpackedFloat.isFinite] at hx'
  | zero s => exact Or.inl ⟨s, rfl⟩
  | finite s m e hm => exact Or.inr ⟨s, m, e, hm, rfl, canonical_of_unpack hunpack⟩

theorem magnitude_pos {m : Nat} (hm : 0 < m) (e : ℤ) : 0 < (m : ℚ) * 2 ^ e := by
  have hm' : (0 : ℚ) < m := Nat.cast_pos.mpr hm
  positivity

theorem value_of_unpack {x : Float} {m : Nat} {e : ℤ} {hm : 0 < m}
    (h : x.toModel.unpack = .finite .positive m e hm) : value x = m * 2 ^ e := by
  have hvalue : unpackedValue x.toModel.unpack = m * 2 ^ e := by
    rw [h]
    rfl
  rw [value, hvalue]
  push_cast
  rfl

theorem value_zero : value 0.0 = 0 := by
  have hzero : (0.0 : Float).toModel.unpack = .zero .positive := by rfl
  rw [value, hzero]
  exact Rat.cast_zero

/-- What is positive and finite. -/
theorem unpack_of_pos {x : Float} (hx : x.isFinite) (hpos : 0 < value x) :
    ∃ m e hm, x.toModel.unpack = .finite .positive m e hm ∧ Canonical m e := by
  rw [value, Rat.cast_pos] at hpos
  rcases unpack_of_finite hx with ⟨s, hzero⟩ | ⟨s, m, e, hm, hunpack, hcanonical⟩
  · rw [hzero] at hpos
    exact absurd hpos (lt_irrefl 0)
  · cases s with
    | positive => exact ⟨m, e, hm, hunpack, hcanonical⟩
    | negative =>
      rw [hunpack] at hpos
      exact absurd hpos (neg_neg_of_pos (magnitude_pos hm e)).not_gt

/-! ## The order of values -/

/-- Of canonical numbers the one with the greater exponent is greater, and of two with the same
exponent the one with the greater mantissa. -/
theorem magnitude_lt {m m' : Nat} {e e' : ℤ} (h : Canonical m e) (h' : Canonical m' e')
    (hlt : toLex (e, (m : ℤ)) < toLex (e', (m' : ℤ))) : (m : ℚ) * 2 ^ e < m' * 2 ^ e' := by
  rcases Prod.Lex.toLex_lt_toLex.mp hlt with hexponent | ⟨hexponent, hmantissa⟩
  · have hfull : 2 ^ 52 ≤ m' := by
      rcases h'.full with hfull | hleast
      · exact hfull
      · have hge := h.exponent_ge
        omega
    have hm : (m : ℚ) < 2 ^ 53 := by exact_mod_cast h.mantissa_lt
    have hm' : (2 : ℚ) ^ 52 ≤ m' := by exact_mod_cast hfull
    have hstep : (2 : ℚ) ^ (e + 1) ≤ 2 ^ e' := zpow_le_zpow_right₀ (by norm_num) hexponent
    calc (m : ℚ) * 2 ^ e < 2 ^ 53 * 2 ^ e := by gcongr
      _ = 2 ^ 52 * 2 ^ (e + 1) := by
        rw [zpow_add_one₀ (by norm_num)]
        ring
      _ ≤ m' * 2 ^ e' := by gcongr
  · dsimp only at hexponent hmantissa
    rw [hexponent]
    have hm : (m : ℚ) < m' := by exact_mod_cast hmantissa
    gcongr

/-- The place of a finite number in the line says how great it is. -/
theorem value_lt_of_place_lt {x y : Float} (hx : x.isFinite) (hy : y.isFinite)
    (h : FloatOrder.place x.toModel.unpack < FloatOrder.place y.toModel.unpack) :
    value x < value y := by
  rw [value, value, Rat.cast_lt]
  rcases unpack_of_finite hx with ⟨s, hux⟩ | ⟨s, m, e, hm, hux, hcanonical⟩ <;>
    rcases unpack_of_finite hy with ⟨s', huy⟩ | ⟨s', m', e', hm', huy, hcanonical'⟩ <;>
    rw [hux, huy] at h ⊢
  · exact absurd h (lt_irrefl _)
  · cases s' with
    | positive => exact magnitude_pos hm' e'
    | negative => simp [FloatOrder.place, Prod.Lex.toLex_lt_toLex] at h
  · cases s with
    | positive => simp [FloatOrder.place, Prod.Lex.toLex_lt_toLex] at h
    | negative => exact neg_lt_zero.mpr (magnitude_pos hm e)
  · cases s with
    | positive =>
      cases s' with
      | positive =>
        refine magnitude_lt hcanonical hcanonical' ?_
        simpa [FloatOrder.place, Prod.Lex.toLex_lt_toLex] using h
      | negative => simp [FloatOrder.place, Prod.Lex.toLex_lt_toLex] at h
    | negative =>
      cases s' with
      | positive => exact (neg_lt_zero.mpr (magnitude_pos hm e)).trans (magnitude_pos hm' e')
      | negative =>
        refine neg_lt_neg (magnitude_lt hcanonical' hcanonical ?_)
        simpa [FloatOrder.place, Prod.Lex.toLex_lt_toLex, eq_comm] using h

theorem value_eq_of_place_eq {x y : Float}
    (h : FloatOrder.place x.toModel.unpack = FloatOrder.place y.toModel.unpack) :
    value x = value y := by
  have hread : ∀ a : UnpackedFloat, unpackedValue a =
      (ofLex (ofLex (FloatOrder.place a)).2).2 *
        2 ^ ((ofLex (FloatOrder.place a)).1 * (ofLex (ofLex (FloatOrder.place a)).2).1) := by
    rintro (_ | _ | _ | ⟨⟨⟩, m, e, hm⟩) <;> simp [unpackedValue, FloatOrder.place]
  rw [value, value, hread, hread, h]

/-- Two floats of one value are equal as numbers. -/
theorem beq_of_value_eq {x y : Float} (hx : x.isFinite) (hy : y.isFinite)
    (h : value x = value y) : (x == y) = true := by
  have hplace : FloatOrder.place x.toModel.unpack = FloatOrder.place y.toModel.unpack := by
    rcases lt_trichotomy (FloatOrder.place x.toModel.unpack)
      (FloatOrder.place y.toModel.unpack) with hlt | heq | hgt
    · exact absurd h (value_lt_of_place_lt hx hy hlt).ne
    · exact heq
    · exact absurd h (value_lt_of_place_lt hy hx hgt).ne'
  show (x.toModel.unpack.compare y.toModel.unpack == some .eq) = true
  rw [FloatOrder.compare_eq_compare_place hx hy, compare_eq_iff_eq.mpr hplace]
  rfl

/-- Finite floats are ordered by their values. -/
theorem lt_iff_value_lt {x y : Float} (hx : x.isFinite) (hy : y.isFinite) :
    x < y ↔ value x < value y := by
  rw [FloatOrder.lt_iff_place_lt hx hy]
  constructor
  · exact value_lt_of_place_lt hx hy
  · intro h
    by_contra hnot
    rcases lt_or_eq_of_le (not_lt.mp hnot) with hlt | heq
    · exact lt_asymm h (value_lt_of_place_lt hy hx hlt)
    · exact h.ne' (value_eq_of_place_eq heq)

/-- Nothing finite is above infinity. -/
theorem not_infinity_lt {x : Float} (hx : x.isFinite) : ¬ (Scalar.infinity : Float) < x := by
  have hinfinity : (Scalar.infinity : Float).toModel.unpack = .infinity .positive := by rfl
  have hx' : x.toModel.unpack.isFinite := hx
  intro h
  have hlt := FloatOrder.lt_iff_unpack.mp h
  rw [hinfinity] at hlt
  cases hux : x.toModel.unpack <;>
    simp [hux, UnpackedFloat.lt, UnpackedFloat.compare, UnpackedFloat.isFinite] at hlt hx'

/-! ## The normal range -/

/-- The greatest finite float. -/
noncomputable def greatest : ℝ := ((2 ^ 53 - 1) * 2 ^ (971 : ℤ) : ℚ)

theorem greatest_eq : greatest = (2 ^ 53 - 1) * 2 ^ (971 : ℤ) := by
  rw [greatest, Rat.cast_mul, Rat.cast_sub, Rat.cast_pow, Rat.cast_zpow, Rat.cast_one,
    Rat.cast_ofNat]

theorem greatest_lt : greatest < 2 ^ (1024 : ℤ) := by
  have hsum : (1024 : ℤ) = (53 : Nat) + 971 := by norm_num
  rw [greatest_eq, hsum, zpow_add₀ (by norm_num), zpow_natCast]
  gcongr
  norm_num

theorem greatest_le : greatest ≤ 2 ^ (1024 : ℤ) := greatest_lt.le

theorem magnitude_le_greatest {m : Nat} {e : ℤ} (hm : m < 2 ^ 53) (he : e ≤ 971) :
    (m : ℝ) * 2 ^ e ≤ greatest := by
  have hm' : (m : ℝ) ≤ 2 ^ 53 - 1 := by
    rw [le_sub_iff_add_le]
    exact_mod_cast hm
  have he' : (2 : ℝ) ^ e ≤ 2 ^ (971 : ℤ) := zpow_le_zpow_right₀ (by norm_num) he
  rw [greatest_eq]
  exact mul_le_mul hm' he' (zpow_nonneg (by norm_num) _) (by norm_num)

/-- The greatest power of two has a full mantissa and the greatest exponent. -/
theorem two_pow_eq_full : (2 : ℝ) ^ 1023 = 2 ^ 52 * 2 ^ (971 : ℤ) := by
  rw [← zpow_natCast, ← zpow_natCast, ← zpow_add₀ (by norm_num)]
  norm_num

theorem zpow_lt_greatest {k : ℤ} (hk : k ≤ 1023) : (2 : ℝ) ^ k < greatest := by
  have hpos : (0 : ℝ) < 2 ^ (971 : ℤ) := zpow_pos (by norm_num) _
  calc (2 : ℝ) ^ k ≤ 2 ^ (1023 : ℤ) := zpow_le_zpow_right₀ (by norm_num) hk
    _ = 2 ^ 52 * 2 ^ (971 : ℤ) := (zpow_natCast 2 1023).trans two_pow_eq_full
    _ < greatest := by
      rw [greatest_eq]
      exact mul_lt_mul_of_pos_right (by norm_num) hpos

theorem lt_greatest : (2 : ℝ) ^ 64 < greatest := by
  rw [← zpow_natCast]
  exact zpow_lt_greatest (by norm_num)

/-- The least number in the normal range. -/
noncomputable def leastNormal : ℝ := (2 ^ (-1022 : ℤ) : ℚ)

theorem leastNormal_eq : leastNormal = 2 ^ (-1022 : ℤ) := by
  rw [leastNormal, Rat.cast_zpow, Rat.cast_ofNat]

theorem leastNormal_pos : 0 < leastNormal := by
  rw [leastNormal_eq]
  exact zpow_pos (by norm_num) _

/-- It has a full mantissa and the least exponent. -/
theorem leastNormal_eq_full : leastNormal = 2 ^ 52 * 2 ^ (-1074 : ℤ) := by
  rw [leastNormal_eq, ← zpow_natCast, ← zpow_add₀ (by norm_num)]
  norm_num

theorem two_mul_leastNormal_le {k : ℤ} (hk : -1021 ≤ k) : 2 * leastNormal ≤ 2 ^ k := by
  rw [leastNormal_eq, ← zpow_one_add₀ (by norm_num)]
  exact zpow_le_zpow_right₀ (by norm_num) (by omega)

theorem leastNormal_le_one : leastNormal ≤ 1 := by
  rw [leastNormal_eq]
  exact zpow_le_one_of_nonpos₀ (by norm_num) (by norm_num)

/-- A positive finite float that has a full mantissa. -/
structure Normal (x : Float) : Prop where
  finite : x.isFinite
  normal : leastNormal ≤ value x

theorem Normal.pos {x : Float} (h : Normal x) : 0 < value x :=
  leastNormal_pos.trans_le h.normal

theorem Normal.unpack {x : Float} (h : Normal x) :
    ∃ m e hm, x.toModel.unpack = .finite .positive m e hm ∧ 2 ^ 52 ≤ m ∧ Canonical m e := by
  obtain ⟨m, e, hm, hunpack, hcanonical⟩ := unpack_of_pos h.finite h.pos
  refine ⟨m, e, hm, hunpack, ?_, hcanonical⟩
  rcases hcanonical.full with hfull | hleast
  · exact hfull
  · -- with the least exponent, only a full mantissa reaches the normal range
    have hnormal := h.normal
    rw [value_of_unpack hunpack, hleast, leastNormal_eq_full] at hnormal
    have hfull := le_of_mul_le_mul_right hnormal (zpow_pos (by norm_num) _)
    exact_mod_cast hfull

theorem Normal.le_greatest {x : Float} (h : Normal x) : value x ≤ greatest := by
  obtain ⟨m, e, hm, hunpack, -, hcanonical⟩ := h.unpack
  rw [value_of_unpack hunpack]
  exact magnitude_le_greatest hcanonical.mantissa_lt hcanonical.exponent_le

/-! ## Packing -/

/-- Packing keeps a number in the normal range. -/
theorem unpack_pack_normal {m : Nat} {e : ℤ} (s : Sign) (hm : 0 < m) (hfull : 2 ^ 52 ≤ m)
    (hlt : m < 2 ^ 53) (hlow : -1074 ≤ e) (hhigh : e ≤ 971) :
    (Float.Model.pack (.finite s m e hm)).unpack = .finite s m e hm := by
  have hlog : m.log2 = 52 := (Nat.log2_eq_iff (by omega)).mpr ⟨hfull, hlt⟩
  obtain ⟨b, hb⟩ := Int.eq_ofNat_of_zero_le (a := e + 1075) (by omega)
  have he : e = b - 1075 := by omega
  subst he
  have hbiased : ((b : ℤ) - 1075 + 1023 + 52).toNat = b := by omega
  unfold Float.Model.unpack Float.Model.pack
  simp only [UnpackedFloat.pack, Format.exponentBias, Format.mantissaBits]
  norm_num
  rw [hbiased, if_neg (by omega), if_pos (by omega)]
  unfold UnpackedFloat.unpack
  simp only [unpackExponent_packComponents, unpackMantissa_packComponents,
    unpackSign_packComponents, Sign.ofBitVec_toBitVec]
  have htop : ¬ BitVec.ofNat 11 b = -1#11 := by
    intro h
    have hb := congrArg BitVec.toNat h
    simp at hb
    omega
  have hleast : ¬ BitVec.ofNat 11 b = 0#11 := by
    intro h
    have hb := congrArg BitVec.toNat h
    simp at hb
    omega
  rw [if_neg htop, if_neg hleast]
  have hmantissa : (1#1 ++ BitVec.ofNat 52 m).toNat = m := by
    rw [BitVec.toNat_append, ← Nat.shiftLeft_add_eq_or_of_lt (BitVec.isLt _)]
    simp
    omega
  have hexponent : ((BitVec.ofNat 11 b).toNat : ℤ) -
      ((Format.binary64.exponentBias : ℤ) + (52 : Nat)) = b - 1075 := by
    have hb' : (BitVec.ofNat 11 b).toNat = b := by
      rw [BitVec.toNat_ofNat]
      omega
    rw [hb']
    norm_num [Format.exponentBias]
  simp only [hmantissa, hexponent]

/-- An exponent that does not fit makes a number infinite. -/
theorem pack_infinity {m : Nat} {e : ℤ} (hm : 0 < m)
    (hover : 2 ^ 11 ≤ (e + Format.binary64.exponentBias + (52 : Nat)).toNat + 1) :
    Float.ofModel (Float.Model.pack (.finite .positive m e hm)) = Scalar.infinity := by
  have hpack : UnpackedFloat.pack Format.binary64 (.finite .positive m e hm) =
      packedInfinity Format.binary64 .positive := if_pos hover
  have hinfinity : (Scalar.infinity : Float) =
      Float.ofModel (Float.Model.pack (.infinity .positive)) := by rfl
  rw [hinfinity]
  unfold Float.Model.pack
  simp only [hpack]
  rfl

/-- What a number in the normal range becomes when it is packed, by its exponent. -/
theorem pack_cases {m : Nat} {e : ℤ} (hm : 0 < m) (hfull : 2 ^ 52 ≤ m) (hlt : m < 2 ^ 53)
    (hlow : -1074 ≤ e) :
    let x := Float.ofModel (Float.Model.pack (.finite .positive m e hm))
    (Normal x ∧ value x = m * 2 ^ e) ∨ (x = Scalar.infinity ∧ 972 ≤ e) := by
  intro x
  rcases le_or_gt e 971 with hfits | hover
  · have hunpack : x.toModel.unpack = .finite .positive m e hm :=
      unpack_pack_normal .positive hm hfull hlt hlow hfits
    have hvalue := value_of_unpack hunpack
    refine Or.inl ⟨⟨?_, ?_⟩, hvalue⟩
    · show x.toModel.unpack.isFinite = true
      rw [hunpack]
      rfl
    · have hm' : (2 : ℝ) ^ 52 ≤ m := by exact_mod_cast hfull
      have he : (2 : ℝ) ^ (-1074 : ℤ) ≤ 2 ^ e := zpow_le_zpow_right₀ (by norm_num) hlow
      rw [hvalue, leastNormal_eq_full]
      gcongr
  · refine Or.inr ⟨pack_infinity hm ?_, by omega⟩
    norm_num [Format.exponentBias]
    omega

theorem pack_unpack_model (x : Float) : Float.ofModel (Float.Model.pack x.toModel.unpack) = x := by
  have hpack : UnpackedFloat.pack Format.binary64 x.toModel.unpack = x.toModel.toBits.toBitVec :=
    pack_unpack_of_valid x.toModel.valid
  unfold Float.Model.pack
  simp only [hpack]
theorem isFinite_packComponents (s : Sign) {exponent : BitVec 11} (mantissa : BitVec 52)
    (h : exponent ≠ -1#11) :
    (UnpackedFloat.unpack Format.binary64 (packComponents _ s exponent mantissa)).isFinite := by
  unfold UnpackedFloat.unpack
  simp only [unpackExponent_packComponents, unpackMantissa_packComponents]
  rw [if_neg h]
  split
  · split <;> rfl
  · rfl

/-- What packing makes of a positive number is finite or infinite. -/
theorem isFinite_or_infinity {m : Nat} (hm : 0 < m) (e : ℤ) :
    let x := Float.ofModel (Float.Model.pack (.finite .positive m e hm))
    x.isFinite ∨ x = Scalar.infinity := by
  intro x
  by_cases hover : 2 ^ 11 ≤ (e + Format.binary64.exponentBias + (52 : Nat)).toNat + 1
  · exact Or.inr (pack_infinity hm hover)
  · refine Or.inl ?_
    show (UnpackedFloat.unpack Format.binary64
      (UnpackedFloat.pack Format.binary64 (.finite .positive m e hm))).isFinite = true
    unfold UnpackedFloat.pack
    dsimp only
    rw [if_neg hover]
    split
    · refine isFinite_packComponents _ _ ?_
      intro htop
      have hbits := congrArg BitVec.toNat htop
      rw [BitVec.toNat_ofNat, Nat.mod_eq_of_lt (by omega)] at hbits
      exact hover (hbits ▸ by decide)
    · exact isFinite_packComponents _ _ (by decide)

end ThermalSearch.Binary64
