import ThermalSearch.Proofs.Scalar.Infinity

/-!
# Signs in binary floating point

What is not undefined lies on one side of zero, a zero on both (`OnSide`), and the sides are the
comparisons with zero (`onSide_positive_iff`, `onSide_negative_iff`). Rounding does not change sides
(`onSide_roundWithAccuracy`), so the side of a result can be told from those of the operands, and a
result is only undefined if there is an infinity among them.

Of two numbers that are not undefined one is below the other or they are equal (`not_lt_iff`), as among
the finite ones.
-/

namespace ThermalSearch.Binary64

open Float.Model Float.Model.UnpackedFloat

/-- Not undefined, and of this sign unless it is zero. -/
def sided (s : Sign) : UnpackedFloat → Prop
  | .zero _ => True
  | .finite t _ _ _ => t = s
  | .infinity t => t = s
  | .notANumber => False

def OnSide (s : Sign) (x : Float) : Prop := sided s x.toModel.unpack

theorem onSide_zero (s t : Sign) : OnSide s (Float.ofModel (Float.Model.pack (.zero t))) := by
  cases t <;> trivial

theorem onSide_infinity (s : Sign) : OnSide s (Float.ofModel (Float.Model.pack (.infinity s))) := by
  cases s <;> rfl

theorem OnSide.defined {s : Sign} {x : Float} (hx : OnSide s x) : ¬ x.isNaN := by
  intro hundefined
  rw [OnSide, unpack_of_isNaN hundefined] at hx
  exact hx

theorem exists_onSide {x : Float} (hx : ¬ x.isNaN) : ∃ s, OnSide s x := by
  have hx' : ¬ x.toModel.unpack.isNaN = true := hx
  unfold OnSide
  cases hunpack : x.toModel.unpack with
  | zero s => exact ⟨s, trivial⟩
  | finite s m e hm => exact ⟨s, rfl⟩
  | infinity s => exact ⟨s, rfl⟩
  | notANumber =>
    rw [hunpack] at hx'
    exact absurd rfl hx'

/-- What is on a side and not finite is the infinity of that side. -/
theorem OnSide.eq_infinite {s : Sign} {x : Float} (hx : OnSide s x) (hinf : ¬ x.isFinite) :
    x = infinite s := by
  rcases not_finite_cases hinf with ⟨t, rfl⟩ | hundefined
  · have hsign : t = s := by
      rw [OnSide, unpack_infinite] at hx
      exact hx
    rw [hsign]
  · exact absurd hundefined hx.defined

/-! ## Comparisons -/

theorem onSide_positive_iff {x : Float} : OnSide .positive x ↔ 0.0 ≤ x := by
  have hle : 0.0 ≤ x ↔ (UnpackedFloat.zero .positive).le x.toModel.unpack = true :=
    FloatOrder.le_iff_unpack
  rw [hle, OnSide]
  rcases x.toModel.unpack with ⟨⟨⟩⟩ | _ | ⟨⟨⟩⟩ | ⟨⟨⟩, m, e, hm⟩ <;>
    simp [sided, UnpackedFloat.le, UnpackedFloat.compare]

theorem onSide_negative_iff {x : Float} : OnSide .negative x ↔ x ≤ 0.0 := by
  have hle : x ≤ 0.0 ↔ x.toModel.unpack.le (.zero .positive) = true := FloatOrder.le_iff_unpack
  rw [hle, OnSide]
  rcases x.toModel.unpack with ⟨⟨⟩⟩ | _ | ⟨⟨⟩⟩ | ⟨⟨⟩, m, e, hm⟩ <;>
    simp [sided, UnpackedFloat.le, UnpackedFloat.compare]

/-- Turning a comparison round turns its outcome round. -/
theorem compare_swap (a b : UnpackedFloat) : b.compare a = (a.compare b).map Ordering.swap := by
  cases a with
  | notANumber => rcases b with ⟨⟨⟩⟩ | _ | ⟨⟨⟩⟩ | ⟨⟨⟩, m', e', hm'⟩ <;> rfl
  | infinity s => cases s <;> rcases b with ⟨⟨⟩⟩ | _ | ⟨⟨⟩⟩ | ⟨⟨⟩, m', e', hm'⟩ <;> rfl
  | zero s => rcases b with ⟨⟨⟩⟩ | _ | ⟨⟨⟩⟩ | ⟨⟨⟩, m', e', hm'⟩ <;> rfl
  | finite s m e hm =>
    cases b with
    | notANumber => cases s <;> rfl
    | infinity t => cases s <;> cases t <;> rfl
    | zero t => cases s <;> rfl
    | finite t m' e' hm' =>
      -- finite numbers are compared by their places
      rw [FloatOrder.compare_eq_compare_place rfl rfl, FloatOrder.compare_eq_compare_place rfl rfl,
        Option.map_some, ← Std.OrientedCmp.eq_swap]

theorem compare_isSome {a b : UnpackedFloat} (ha : a.isNaN = false) (hb : b.isNaN = false) :
    (a.compare b).isSome := by
  rcases a with ⟨⟨⟩⟩ | _ | ⟨⟨⟩⟩ | ⟨⟨⟩, m, e, hm⟩ <;>
    rcases b with ⟨⟨⟩⟩ | _ | ⟨⟨⟩⟩ | ⟨⟨⟩, m', e', hm'⟩ <;>
    simp [UnpackedFloat.compare, UnpackedFloat.isNaN] at ha hb ⊢

theorem not_lt_iff {x y : Float} (hx : ¬ x.isNaN) (hy : ¬ y.isNaN) : ¬ x < y ↔ y ≤ x := by
  have hlt : x < y ↔ (x.toModel.unpack.compare y.toModel.unpack == some .lt) = true :=
    FloatOrder.lt_iff_unpack
  have hle : y ≤ x ↔ (y.toModel.unpack.compare x.toModel.unpack).any (·.isLE) = true :=
    FloatOrder.le_iff_unpack
  obtain ⟨o, ho⟩ := Option.isSome_iff_exists.mp
    (compare_isSome (Bool.not_eq_true _ ▸ hx) (Bool.not_eq_true _ ▸ hy))
  rw [hlt, hle, compare_swap x.toModel.unpack, ho]
  cases o <;> decide

theorem le_refl {x : Float} (hx : ¬ x.isNaN) : x ≤ x := by
  rw [← not_lt_iff hx hx]
  intro hlt
  have hless : x.toModel.unpack.compare x.toModel.unpack = some .lt :=
    beq_iff_eq.mp (FloatOrder.lt_iff_unpack.mp hlt)
  have hswap := compare_swap x.toModel.unpack x.toModel.unpack
  rw [hless] at hswap
  cases hswap

/-- Whatever is compared is not undefined. -/
theorem defined_of_le {x y : Float} (h : x ≤ y) : ¬ x.isNaN ∧ ¬ y.isNaN := by
  have hle := FloatOrder.le_iff_unpack.mp h
  constructor
  · intro hundefined
    rw [unpack_of_isNaN hundefined] at hle
    cases hle
  · intro hundefined
    rw [unpack_of_isNaN hundefined, UnpackedFloat.le, compare_swap] at hle
    cases hle

/-- What lies between finite numbers is finite. -/
theorem isFinite_of_between {lo x hi : Float} (hlo : lo.isFinite) (hhi : hi.isFinite) (h : lo ≤ x)
    (h' : x ≤ hi) : x.isFinite := by
  have hle := FloatOrder.le_iff_unpack.mp h
  have hle' := FloatOrder.le_iff_unpack.mp h'
  by_contra hinfinite
  rcases not_finite_cases hinfinite with ⟨s, rfl⟩ | hundefined
  · -- each infinity is beyond one of the bounds
    rw [unpack_infinite] at hle hle'
    cases s with
    | positive =>
      rcases unpack_of_finite hhi with ⟨t, hunpack⟩ | ⟨t, m, e, hm, hunpack, -⟩ <;>
        simp [hunpack, UnpackedFloat.le, UnpackedFloat.compare] at hle'
    | negative =>
      rcases unpack_of_finite hlo with ⟨t, hunpack⟩ | ⟨t, m, e, hm, hunpack, -⟩ <;>
        simp [hunpack, UnpackedFloat.le, UnpackedFloat.compare] at hle
  · exact (defined_of_le h).2 hundefined

theorem isFinite_of_strictly_between {lo x hi : Float} (hlo : lo.isFinite) (hhi : hi.isFinite)
    (h : lo < x) (h' : x < hi) : x.isFinite := by
  have hle {a b : Float} (hlt : a < b) : a ≤ b := by
    have hless : a.toModel.unpack.compare b.toModel.unpack = some .lt :=
      beq_iff_eq.mp (FloatOrder.lt_iff_unpack.mp hlt)
    rw [FloatOrder.le_iff_unpack, UnpackedFloat.le, hless]
    rfl
  exact isFinite_of_between hlo hhi (hle h) (hle h')

/-- What is defined comes to lie between the bounds. -/
theorem clamp_mem {x lo hi : Float} (hx : ¬ x.isNaN) (h : lo ≤ hi) :
    lo ≤ Scalar.clamp x lo hi ∧ Scalar.clamp x lo hi ≤ hi := by
  obtain ⟨hlo, hhi⟩ := defined_of_le h
  unfold Scalar.clamp
  split
  next hbelow => exact ⟨le_refl hlo, h⟩
  next hbelow =>
    split
    next habove => exact ⟨h, le_refl hhi⟩
    next habove => exact ⟨(not_lt_iff hx hlo).mp hbelow, (not_lt_iff hhi hx).mp habove⟩

/-! ## Rounding -/

/-- With an exponent that fits, the bits are those of something finite with that sign. -/
theorem sided_packComponents (s : Sign) {exponent : BitVec 11} (mantissa : BitVec 52)
    (h : exponent ≠ -1#11) :
    sided s (UnpackedFloat.unpack Format.binary64 (packComponents _ s exponent mantissa)) := by
  unfold UnpackedFloat.unpack
  simp only [unpackExponent_packComponents, unpackMantissa_packComponents,
    unpackSign_packComponents, Sign.ofBitVec_toBitVec]
  rw [if_neg h]
  split
  · split
    · trivial
    · rfl
  · rfl

/-- Packing keeps the side, and what has an exponent that fits stays finite. -/
theorem onSide_pack (s : Sign) {m : Nat} {e : ℤ} (hm : 0 < m) :
    let x := Float.ofModel (Float.Model.pack (.finite s m e hm))
    OnSide s x ∧ (e ≤ 971 → x.isFinite) := by
  intro x
  have hx : x.toModel.unpack = UnpackedFloat.unpack Format.binary64
      (UnpackedFloat.pack Format.binary64 (.finite s m e hm)) := rfl
  have hfinite : x.isFinite = x.toModel.unpack.isFinite := rfl
  rw [OnSide, hfinite, hx]
  unfold UnpackedFloat.pack
  dsimp only
  by_cases hover : 2 ^ 11 ≤ (e + Format.binary64.exponentBias + (52 : Nat)).toNat + 1
  · refine ⟨?_, ?_⟩
    · rw [if_pos hover]
      cases s <;> rfl
    · intro hfits
      norm_num [Format.exponentBias] at hover
      omega
  · have hexponent : BitVec.ofNat 11 (e + Format.binary64.exponentBias + (52 : Nat)).toNat ≠
        -1#11 := by
      intro htop
      have hbits := congrArg BitVec.toNat htop
      rw [BitVec.toNat_ofNat, Nat.mod_eq_of_lt (by omega)] at hbits
      exact hover (hbits ▸ by decide)
    have hleast : (0#11 : BitVec 11) ≠ -1#11 := by decide
    rw [if_neg hover]
    split
    · exact ⟨sided_packComponents s _ hexponent, fun _ => isFinite_packComponents s _ hexponent⟩
    · exact ⟨sided_packComponents s _ hleast, fun _ => isFinite_packComponents s _ hleast⟩

theorem onSide_roundWithAccuracy (s : Sign) (m : Nat) (e : ℤ) (accuracy : Accuracy) :
    OnSide s (Float.ofModel (Float.Model.pack
      (roundWithAccuracy Format.binary64 s m e accuracy))) := by
  unfold roundWithAccuracy
  dsimp only
  split
  · exact onSide_zero s s
  · exact (onSide_pack s _).1

/-- A sum or difference stays on its side. -/
theorem onSide_normalize {s : Sign} {z : ℤ} (hz : 0 ≤ s.apply z) (e : ℤ) :
    OnSide s (Float.ofModel (Float.Model.pack
      (UnpackedFloat.normalize Format.binary64 z e .positive))) := by
  unfold UnpackedFloat.normalize
  rcases lt_trichotomy z 0 with hneg | rfl | hpos
  · rw [compare_lt_iff_lt.mpr hneg]
    cases s with
    | positive => exact absurd hneg hz.not_gt
    | negative => exact onSide_roundWithAccuracy .negative _ _ .exact
  · exact onSide_zero s .positive
  · rw [compare_gt_iff_gt.mpr hpos]
    cases s with
    | positive => exact onSide_roundWithAccuracy .positive _ _ .exact
    | negative => exact absurd hpos (neg_nonneg.mp hz).not_gt

theorem defined_normalize (z e : ℤ) : ¬ (Float.ofModel (Float.Model.pack
    (UnpackedFloat.normalize Format.binary64 z e .positive))).isNaN := by
  rcases le_total 0 z with hz | hz
  · exact (onSide_normalize (s := .positive) hz e).defined
  · exact (onSide_normalize (s := .negative) (neg_nonneg.mpr hz) e).defined

/-! ## Operations -/

theorem OnSide.neg {s : Sign} {x : Float} (hx : OnSide s x) : OnSide (-s) (-x) := by
  have hneg : -x = Float.ofModel (Float.Model.pack x.toModel.unpack.neg) := rfl
  rw [OnSide] at hx
  rw [hneg]
  cases hunpack : x.toModel.unpack with
  | zero t => exact onSide_zero (-s) (-t)
  | finite t m e hm =>
    rw [hunpack] at hx
    cases hx
    exact (onSide_pack (-s) hm).1
  | infinity t =>
    rw [hunpack] at hx
    cases hx
    exact onSide_infinity (-s)
  | notANumber =>
    rw [hunpack] at hx
    exact hx.elim

theorem isFinite_neg {x : Float} (hx : x.isFinite) : (-x).isFinite := by
  have hneg : -x = Float.ofModel (Float.Model.pack x.toModel.unpack.neg) := rfl
  rw [hneg]
  rcases unpack_of_finite hx with ⟨s, hunpack⟩ | ⟨s, m, e, hm, hunpack, hcanonical⟩
  · rw [hunpack]
    cases s <;> rfl
  · rw [hunpack]
    exact (onSide_pack (-s) hm).2 hcanonical.exponent_le

/-- A product of finite numbers is a zero, or the rounded product of what is not zero. -/
theorem mul_cases {x y : Float} (hx : x.isFinite) (hy : y.isFinite) :
    (∃ s, x * y = Float.ofModel (Float.Model.pack (.zero s))) ∨
      ∃ s m e hm t m' e' hm', x.toModel.unpack = .finite s m e hm ∧ Canonical m e ∧
        y.toModel.unpack = .finite t m' e' hm' ∧
        x * y = Float.ofModel (Float.Model.pack
          (roundWithAccuracy Format.binary64 (s * t) (m * m') (e + e') .exact)) := by
  have hproduct : x * y = Float.ofModel (Float.Model.pack
      (UnpackedFloat.mul Format.binary64 x.toModel.unpack y.toModel.unpack)) := rfl
  rcases unpack_of_finite hx with ⟨s, hux⟩ | ⟨s, m, e, hm, hux, hcanonical⟩ <;>
    rcases unpack_of_finite hy with ⟨t, huy⟩ | ⟨t, m', e', hm', huy, -⟩ <;>
    rw [hux, huy] at hproduct
  · exact Or.inl ⟨s * t, hproduct⟩
  · exact Or.inl ⟨s * t, hproduct⟩
  · exact Or.inl ⟨s * t, hproduct⟩
  · exact Or.inr ⟨s, m, e, hm, t, m', e', hm', hux, hcanonical, huy, hproduct⟩

theorem OnSide.mul {s t : Sign} {x y : Float} (hx : OnSide s x) (hy : OnSide t y)
    (hxf : x.isFinite) (hyf : y.isFinite) : OnSide (s * t) (x * y) := by
  rcases mul_cases hxf hyf with
    ⟨u, hzero⟩ | ⟨s', m, e, hm, t', m', e', hm', hux, -, huy, hproduct⟩
  · rw [hzero]
    exact onSide_zero _ u
  · rw [OnSide, hux] at hx
    rw [OnSide, huy] at hy
    cases hx
    cases hy
    rw [hproduct]
    exact onSide_roundWithAccuracy (s * t) _ _ .exact

/-- What is positive, as far as its bits tell. -/
theorem pos_cases {a : UnpackedFloat} (ha : (UnpackedFloat.zero .positive).lt a = true) :
    (∃ m e hm, a = .finite .positive m e hm) ∨ a = .infinity .positive := by
  cases a with
  | zero s => simp [UnpackedFloat.lt, UnpackedFloat.compare] at ha
  | notANumber => simp [UnpackedFloat.lt, UnpackedFloat.compare] at ha
  | finite s m e hm =>
    cases s with
    | positive => exact Or.inl ⟨m, e, hm, rfl⟩
    | negative => simp [UnpackedFloat.lt, UnpackedFloat.compare] at ha
  | infinity s =>
    cases s with
    | positive => exact Or.inr rfl
    | negative => simp [UnpackedFloat.lt, UnpackedFloat.compare] at ha

theorem onSide_of_pos {x : Float} (hx : 0.0 < x) : OnSide .positive x := by
  rw [OnSide]
  rcases pos_cases (zero_lt_iff.mp hx) with ⟨m, e, hm, hunpack⟩ | hunpack
  · rw [hunpack]
    rfl
  · rw [hunpack]
    rfl

/-- A positive divisor keeps the side of the dividend, unless both are infinite. -/
theorem OnSide.div {s : Sign} {x y : Float} (hx : OnSide s x) (hy : 0.0 < y)
    (hfinite : x.isFinite ∨ y.isFinite) : OnSide s (x / y) := by
  have hquotient : x / y = Float.ofModel (Float.Model.pack
      (UnpackedFloat.div Format.binary64 x.toModel.unpack y.toModel.unpack)) := rfl
  have hsign : s / .positive = s := by cases s <;> rfl
  have hfinite' : x.toModel.unpack.isFinite ∨ y.toModel.unpack.isFinite := hfinite
  rw [OnSide] at hx
  rw [hquotient]
  rcases pos_cases (zero_lt_iff.mp hy) with ⟨m', e', hm', huy⟩ | huy
  · rw [huy]
    cases hux : x.toModel.unpack with
    | zero t =>
      simp only [UnpackedFloat.div]
      exact onSide_zero s _
    | finite t m e hm =>
      rw [hux] at hx
      cases hx
      simp only [UnpackedFloat.div, hsign]
      exact onSide_roundWithAccuracy s _ _ _
    | infinity t =>
      rw [hux] at hx
      cases hx
      simp only [UnpackedFloat.div, hsign]
      exact onSide_infinity s
    | notANumber =>
      rw [hux] at hx
      exact hx.elim
  · -- an infinite divisor leaves a zero of whatever is finite
    rw [huy] at hfinite' ⊢
    cases hux : x.toModel.unpack with
    | zero t =>
      simp only [UnpackedFloat.div]
      exact onSide_zero s _
    | finite t m e hm =>
      simp only [UnpackedFloat.div]
      exact onSide_zero s _
    | infinity t => simp [hux, UnpackedFloat.isFinite] at hfinite'
    | notANumber =>
      rw [hux] at hx
      exact hx.elim

theorem isNaN_div_infinity {x : Float} (hx : ¬ x.isFinite) : (x / Scalar.infinity).isNaN := by
  have hquotient : x / Scalar.infinity = Float.ofModel (Float.Model.pack
      (UnpackedFloat.div Format.binary64 x.toModel.unpack (.infinity .positive))) := rfl
  rw [hquotient]
  rcases not_finite_cases hx with ⟨s, rfl⟩ | hundefined
  · rw [unpack_infinite]
    exact isNaN_pack
  · rw [unpack_of_isNaN hundefined]
    exact isNaN_pack

end ThermalSearch.Binary64
