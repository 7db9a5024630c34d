import ThermalSearch.Proofs.Scalar.Exact
import ThermalSearch.Proofs.Scalar.Operations
import ThermalSearch.Proofs.Scalar.Unrounded

/-!
# Differences and comparisons

An acceptance rule that looks at the sign of a difference of energies compares them: of two finite
numbers the first is below the second just when their difference is negative (`SignedDifference`). That
is so in an ordered field and among the reals with infinities.

It is so in binary floating point, too. Rounding does not make a difference vanish, since numbers on the
grid are multiples of the least positive one (`OnGrid.least_le_sub`), and a difference from something
greater can only overflow downwards (`sub_eq_infinite_of_lt`).
-/

namespace ThermalSearch

/-- Differences of finite numbers have the sign that comparing them tells. -/
class SignedDifference (α : Type) [Scalar α] : Prop where
  sub_lt_zero_iff : ∀ {x y : α}, Scalar.isFinite x → Scalar.isFinite y → (x - y < 0.0 ↔ x < y)

instance Exact.signedDifference {K : Type} [Field K] [LinearOrder K] [IsStrictOrderedRing K]
    [FloorSemiring K] (f : Uninterpreted K) : SignedDifference (Exact f) where
  sub_lt_zero_iff {x y} _ _ := by
    rw [Exact.lt_iff, Exact.lt_iff, Exact.value_sub, Exact.value_zero]
    exact sub_neg

instance Unrounded.signedDifference : SignedDifference Unrounded where
  sub_lt_zero_iff {x y} hx hy := by
    obtain ⟨a, rfl⟩ := Unrounded.isFinite_iff.mp hx
    obtain ⟨b, rfl⟩ := Unrounded.isFinite_iff.mp hy
    have hdifference : Unrounded.finite a - Unrounded.finite b = Unrounded.finite (a - b) :=
      congrArg Unrounded.finite (sub_eq_add_neg a b).symm
    rw [hdifference, Unrounded.zero_eq, Unrounded.finite_lt, Unrounded.finite_lt]
    exact sub_neg

/-! ## Binary floating point -/

namespace Binary64

open Float.Model Float.Model.UnpackedFloat

/-- Numbers on the grid are no nearer to each other than the least positive one is to zero. -/
theorem OnGrid.least_le_sub {a b : ℝ} (ha : OnGrid a) (hb : OnGrid b) (hlt : a < b) :
    2 ^ (-1074 : ℤ) ≤ b - a := by
  have hunit : (0 : ℝ) < 2 ^ (-1074 : ℤ) := zpow_pos (by norm_num) _
  have hmultiple {c : ℝ} (hc : OnGrid c) : ∃ k : ℤ, c = k * 2 ^ (-1074 : ℤ) := by
    rcases hc.multiple_or_le (-1074) with hk | ⟨hfiner, -⟩
    · exact hk
    · exact absurd hfiner (lt_irrefl _)
  obtain ⟨k, rfl⟩ := hmultiple ha
  obtain ⟨l, rfl⟩ := hmultiple hb
  have hkl : k < l := by exact_mod_cast lt_of_mul_lt_mul_right hlt hunit.le
  have hone : (1 : ℝ) ≤ l - k := by
    have hstep : k + 1 ≤ l := hkl
    have hstep' : (k : ℝ) + 1 ≤ l := by exact_mod_cast hstep
    linarith
  rw [← sub_mul]
  exact le_mul_of_one_le_left hunit.le hone

variable {x y : Float}

/-- A difference from something greater does not overflow upwards. -/
theorem sub_eq_infinite_of_lt (hx : x.isFinite) (hy : y.isFinite) (hlt : value x < value y)
    (hover : ¬ (x - y).isFinite) : x - y = infinite .negative := by
  have hrounded := isRounded_sub hx hy
  have hdifference : x - y = Float.ofModel (Float.Model.pack
      (UnpackedFloat.sub Format.binary64 x.toModel.unpack y.toModel.unpack)) := rfl
  refine OnSide.eq_infinite ?_ hover
  -- a difference from or of zero is finite
  rcases unpack_of_finite hx with ⟨s, hux⟩ | ⟨s, m, e, hm, hux, -⟩
  · refine absurd (hrounded.finite ?_) hover
    rw [value_of_zero hux, zero_sub, abs_neg]
    exact abs_value_le_greatest hy
  rcases unpack_of_finite hy with ⟨t, huy⟩ | ⟨t, m', e', hm', huy, -⟩
  · refine absurd (hrounded.finite ?_) hover
    rw [value_of_zero huy, sub_zero]
    exact abs_value_le_greatest hx
  · rw [value_of_decreased hux (min_le_left e e'), value_of_decreased huy (min_le_right e e')]
      at hlt
    rw [hdifference, hux, huy]
    refine onSide_normalize ?_ _
    have hunits := lt_of_mul_lt_mul_right hlt (zpow_nonneg (by norm_num) _)
    exact neg_nonneg.mpr (sub_nonpos.mpr (Int.cast_lt.mp hunits).le)

theorem sub_lt_zero_iff (hx : x.isFinite) (hy : y.isFinite) : x - y < 0.0 ↔ x < y := by
  rw [lt_iff_value_lt hx hy]
  constructor
  · intro hnegative
    by_contra hle
    have hside : OnSide .positive (x - y) := onSide_sub hx hy (not_lt.mp hle)
    have hnonneg : 0.0 ≤ x - y := onSide_positive_iff.mp hside
    exact (not_lt_iff hside.defined (by decide)).mpr hnonneg hnegative
  · intro hlt
    by_cases hfinite : (x - y).isFinite
    · have hgap := (onGrid_value hx).least_le_sub (onGrid_value hy) hlt
      have hvalue : value (x - y) ≤ -(2 : ℝ) ^ (-1074 : ℤ) :=
        ((isRounded_sub hx hy).nearest hfinite).le_of_le (onGrid_zpow le_rfl).neg (by linarith)
      rw [lt_iff_value_lt hfinite (by rfl), value_zero]
      exact hvalue.trans_lt (neg_lt_zero.mpr (zpow_pos (by norm_num) _))
    · rw [sub_eq_infinite_of_lt hx hy hlt hfinite]
      exact (infinite_lt_zero_iff .negative).mpr rfl

instance signedDifference : SignedDifference Float where
  sub_lt_zero_iff := sub_lt_zero_iff

end Binary64

end ThermalSearch
