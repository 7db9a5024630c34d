import Mathlib.Data.Prod.Lex
import ThermalSearch.Scalar

/-!
# The order of the finite numbers

Searching for a least energy needs one thing of the numbers: that the finite ones stand in a
line. Numbers that stand in one place of it, as the two floating-point zeros do, need not be the
same. Nothing is asked of infinite and undefined numbers, nor of the arithmetic.

Binary floating point meets this (`FloatOrder.finiteOrder`): finite numbers in their normal form are
compared first by sign, then by exponent, then by mantissa.
-/

namespace ThermalSearch

/-- The finite numbers stand in a line. -/
class FiniteOrder (α : Type) [Scalar α] : Prop where
  lt_iff_not_le : ∀ {x y : α}, Scalar.isFinite x → Scalar.isFinite y → (x < y ↔ ¬ y ≤ x)
  le_total : ∀ {x y : α}, Scalar.isFinite x → Scalar.isFinite y → x ≤ y ∨ y ≤ x
  le_trans : ∀ {x y z : α}, Scalar.isFinite x → Scalar.isFinite y → Scalar.isFinite z →
    x ≤ y → y ≤ z → x ≤ z

namespace FiniteOrder

variable {α : Type} [Scalar α] [FiniteOrder α] {x y z : α}

theorem le_refl (hx : Scalar.isFinite x) : x ≤ x := by
  rcases le_total hx hx with h | h
  · exact h
  · exact h

theorem not_lt (hx : Scalar.isFinite x) (hy : Scalar.isFinite y) : ¬ x < y ↔ y ≤ x := by
  rw [lt_iff_not_le hx hy, not_not]

theorem le_of_lt (hx : Scalar.isFinite x) (hy : Scalar.isFinite y) (h : x < y) : x ≤ y := by
  have hnot : ¬ y ≤ x := (lt_iff_not_le hx hy).mp h
  rcases le_total hx hy with hle | hle
  · exact hle
  · exact absurd hle hnot

theorem lt_of_lt_of_le (hx : Scalar.isFinite x) (hy : Scalar.isFinite y)
    (hz : Scalar.isFinite z) (hxy : x < y) (hyz : y ≤ z) : x < z := by
  rw [lt_iff_not_le hx hz]
  intro hzx
  exact (lt_iff_not_le hx hy).mp hxy (le_trans hy hz hx hyz hzx)

end FiniteOrder

/-- Whatever is below another number is defined, and so equals itself. -/
class DefinedBelow (α : Type) [Scalar α] : Prop where
  beq_self_of_lt : ∀ {x y : α}, x < y → (x == x) = true

/-! ## Binary floating point -/

open Float.Model

namespace FloatOrder

/-- Numbers are compared by what their bits stand for. -/
theorem lt_iff_unpack {x y : Float} :
    x < y ↔ x.toModel.unpack.lt y.toModel.unpack = true := decide_eq_true_iff

theorem le_iff_unpack {x y : Float} :
    x ≤ y ↔ x.toModel.unpack.le y.toModel.unpack = true := decide_eq_true_iff

/-- The place of a finite number in the line: its sign, and within a sign the exponent before
the mantissa. -/
def place : UnpackedFloat → ℤ ×ₗ ℤ ×ₗ ℤ
  | .finite .positive mantissa exponent _ => toLex (1, toLex (exponent, (mantissa : ℤ)))
  | .finite .negative mantissa exponent _ => toLex (-1, toLex (-exponent, -(mantissa : ℤ)))
  | _ => toLex (0, toLex (0, 0))

/-- Comparing exponents first and mantissas in case of a tie is the order of pairs. -/
theorem compare_then_compare (e e' : ℤ) (m m' : ℕ) :
    (compare e e').then (compare m m') =
      compare (toLex (e, (m : ℤ))) (toLex (e', (m' : ℤ))) := by
  have hm : compare m m' = compare (m : ℤ) (m' : ℤ) := by
    rcases lt_trichotomy m m' with h | rfl | h
    · rw [compare_lt_iff_lt.mpr h, compare_lt_iff_lt.mpr (Int.ofNat_lt.mpr h)]
    · rw [compare_eq_iff_eq.mpr rfl, compare_eq_iff_eq.mpr rfl]
    · rw [compare_gt_iff_gt.mpr h, compare_gt_iff_gt.mpr (Int.ofNat_lt.mpr h)]
  rw [hm]
  rfl

/-- Among negative numbers all comparisons are the other way round. -/
theorem swap_compare_then_compare (e e' : ℤ) (m m' : ℕ) :
    ((compare e e').then (compare m m')).swap =
      compare (toLex (-e, -(m : ℤ))) (toLex (-e', -(m' : ℤ))) := by
  have hneg : ∀ (e e' : ℤ) (m m' : ℕ), toLex (e, (m : ℤ)) < toLex (e', (m' : ℤ)) →
      toLex (-e', -(m' : ℤ)) < toLex (-e, -(m : ℤ)) := by
    intro e e' m m' h
    rw [Prod.Lex.toLex_lt_toLex] at h ⊢
    dsimp only at h ⊢
    omega
  rw [compare_then_compare]
  rcases lt_trichotomy (toLex (e, (m : ℤ))) (toLex (e', (m' : ℤ))) with h | h | h
  · rw [compare_lt_iff_lt.mpr h, compare_gt_iff_gt.mpr (hneg e e' m m' h)]
    rfl
  · cases h
    rw [compare_eq_iff_eq.mpr rfl, compare_eq_iff_eq.mpr rfl]
    rfl
  · rw [compare_gt_iff_gt.mpr h, compare_lt_iff_lt.mpr (hneg e' e m' m h)]
    rfl

/-- Finite numbers are compared by their places. -/
theorem compare_eq_compare_place {a b : UnpackedFloat} (ha : a.isFinite) (hb : b.isFinite) :
    a.compare b = some (compare (place a) (place b)) := by
  cases a with
  | infinity => cases ha
  | notANumber => cases ha
  | zero =>
    cases b with
    | infinity => cases hb
    | notANumber => cases hb
    | zero => rfl
    | finite s => cases s <;> rfl
  | finite s m e =>
    cases b with
    | infinity => cases hb
    | notANumber => cases hb
    | zero => cases s <;> rfl
    | finite s' m' e' =>
      cases s with
      | positive =>
        cases s' with
        | positive => exact congrArg some (compare_then_compare e e' m m')
        | negative => rfl
      | negative =>
        cases s' with
        | positive => rfl
        | negative => exact congrArg some (swap_compare_then_compare e e' m m')

theorem unpackedLt_iff_place_lt {a b : UnpackedFloat} (ha : a.isFinite) (hb : b.isFinite) :
    a.lt b ↔ place a < place b := by
  show (a.compare b == some .lt) = true ↔ _
  rw [compare_eq_compare_place ha hb, beq_iff_eq, Option.some.injEq, compare_lt_iff_lt]

theorem unpackedLe_iff_place_le {a b : UnpackedFloat} (ha : a.isFinite) (hb : b.isFinite) :
    a.le b ↔ place a ≤ place b := by
  show (a.compare b).any (·.isLE) = true ↔ _
  rw [compare_eq_compare_place ha hb]
  show (compare (place a) (place b)).isLE = true ↔ _
  exact Ordering.isLE_iff_ne_gt.trans ((not_congr compare_gt_iff_gt).trans not_lt)

theorem lt_iff_place_lt {x y : Float} (hx : x.isFinite) (hy : y.isFinite) :
    x < y ↔ place x.toModel.unpack < place y.toModel.unpack :=
  lt_iff_unpack.trans (unpackedLt_iff_place_lt hx hy)

theorem le_iff_place_le {x y : Float} (hx : x.isFinite) (hy : y.isFinite) :
    x ≤ y ↔ place x.toModel.unpack ≤ place y.toModel.unpack :=
  le_iff_unpack.trans (unpackedLe_iff_place_le hx hy)

/-- The finite floating-point numbers stand in a line, the two zeros in one place. -/
instance finiteOrder : FiniteOrder Float where
  lt_iff_not_le {x y} hx hy := by
    have hlt : x < y ↔ place x.toModel.unpack < place y.toModel.unpack := lt_iff_place_lt hx hy
    have hle : y ≤ x ↔ place y.toModel.unpack ≤ place x.toModel.unpack := le_iff_place_le hy hx
    exact hlt.trans (not_le.symm.trans (not_congr hle.symm))
  le_total {x y} hx hy := by
    have hxy : x ≤ y ↔ place x.toModel.unpack ≤ place y.toModel.unpack := le_iff_place_le hx hy
    have hyx : y ≤ x ↔ place y.toModel.unpack ≤ place x.toModel.unpack := le_iff_place_le hy hx
    exact (le_total (place x.toModel.unpack) (place y.toModel.unpack)).imp hxy.mpr hyx.mpr
  le_trans {x y z} hx hy hz hxy hyz := by
    have hxy' : place x.toModel.unpack ≤ place y.toModel.unpack := (le_iff_place_le hx hy).mp hxy
    have hyz' : place y.toModel.unpack ≤ place z.toModel.unpack := (le_iff_place_le hy hz).mp hyz
    exact (le_iff_place_le hx hz).mpr (hxy'.trans hyz')

theorem unpackedBeq_self {a b : UnpackedFloat} (h : a.lt b) : a.beq a := by
  have hself : a.isFinite → a.beq a := by
    intro ha
    show (a.compare a == some .eq) = true
    rw [compare_eq_compare_place ha ha, compare_eq_iff_eq.mpr rfl]
    rfl
  cases a with
  | notANumber => cases h
  | infinity s => cases s <;> rfl
  | zero => exact hself rfl
  | finite => exact hself rfl

/-- An undefined number stands in no comparison. -/
instance definedBelow : DefinedBelow Float where
  beq_self_of_lt h := unpackedBeq_self (lt_iff_unpack.mp h)

end FloatOrder

end ThermalSearch
