import Mathlib.Analysis.SpecialFunctions.Log.Basic
import Mathlib.Analysis.SpecialFunctions.Pow.Real
import ThermalSearch.Scalar

/-!
# Floating point without rounding

The real numbers with two infinities and something undefined, calculated with as floating point does,
except that no result is rounded. What is finite is calculated with as in the reals (the simp lemmas
here), and an infinity comes from an infinity or from a division by zero only.

In contrast to the reals themselves this has energies that are not finite, as a search may meet them.
-/

namespace ThermalSearch

inductive Unrounded where
  | finite (x : ℝ)
  | infinite (positive : Bool)
  | undefined

namespace Unrounded

def add : Unrounded → Unrounded → Unrounded
  | finite x, finite y => finite (x + y)
  | infinite s, infinite t => if s = t then infinite s else undefined
  | infinite s, finite _ => infinite s
  | finite _, infinite s => infinite s
  | _, _ => undefined

def neg : Unrounded → Unrounded
  | finite x => finite (-x)
  | infinite s => infinite !s
  | undefined => undefined

/-- Zero times infinity is undefined, another factor keeps or turns the sign of an infinity. -/
noncomputable def scale (s : Bool) (x : ℝ) : Unrounded :=
  if x = 0 then undefined else infinite (s == decide (0 < x))

noncomputable def mul : Unrounded → Unrounded → Unrounded
  | finite x, finite y => finite (x * y)
  | infinite s, infinite t => infinite (s == t)
  | infinite s, finite x => scale s x
  | finite x, infinite s => scale s x
  | _, _ => undefined

/-- There is one zero, which counts as a positive divisor. -/
noncomputable def div : Unrounded → Unrounded → Unrounded
  | finite x, finite y => if y = 0 then scale true x else finite (x / y)
  | finite _, infinite _ => finite 0
  | infinite s, finite x => infinite (s == decide (0 ≤ x))
  | _, _ => undefined

/-- The order of the reals between the infinities; what is undefined is not compared. -/
def Less : Unrounded → Unrounded → Prop
  | finite x, finite y => x < y
  | infinite s, infinite t => s < t
  | infinite s, finite _ => s = false
  | finite _, infinite s => s = true
  | _, _ => False

def AtMost : Unrounded → Unrounded → Prop
  | finite x, finite y => x ≤ y
  | infinite s, infinite t => s ≤ t
  | infinite s, finite _ => s = false
  | finite _, infinite s => s = true
  | _, _ => False

noncomputable def exp : Unrounded → Unrounded
  | finite x => finite (Real.exp x)
  | infinite true => infinite true
  | infinite false => finite 0
  | undefined => undefined

noncomputable def ln : Unrounded → Unrounded
  | finite x => if 0 < x then finite (Real.log x) else if x = 0 then infinite false else undefined
  | infinite true => infinite true
  | _ => undefined

noncomputable def sqrt : Unrounded → Unrounded
  | finite x => if x < 0 then undefined else finite √x
  | infinite true => infinite true
  | _ => undefined

/-- Powers of positive numbers; no others are taken. -/
noncomputable def pow : Unrounded → Unrounded → Unrounded
  | finite x, finite y => if 0 < x then finite (x ^ y) else undefined
  | _, _ => undefined

noncomputable def nearest : Unrounded → Nat
  | finite x => ⌊x + 0.5⌋₊
  | infinite true => Scalar.maxIndex
  | _ => 0

def isFinite : Unrounded → Bool
  | finite _ => true
  | _ => false

def isNaN : Unrounded → Bool
  | undefined => true
  | _ => false

open Classical in
noncomputable instance : Scalar Unrounded where
  add := add
  sub x y := add x (neg y)
  mul := mul
  div := div
  neg := neg
  lt := Less
  le := AtMost
  beq x y := decide (x = y) && !x.isNaN
  ofScientific mantissa negative exponent :=
    finite (OfScientific.ofScientific mantissa negative exponent)
  decidableLT _ _ := inferInstance
  decidableLE _ _ := inferInstance
  ofNat n := finite n
  isFinite := isFinite
  isNaN := isNaN
  infinity := infinite true
  exp := exp
  ln := ln
  sqrt := sqrt
  pow := pow
  nearest := nearest

/-! ## Finite numbers -/

variable {x y : ℝ}

@[simp] theorem neg_finite : -finite x = finite (-x) := rfl

@[simp] theorem finite_mul : finite x * finite y = finite (x * y) := rfl

theorem finite_div (hy : y ≠ 0) : finite x / finite y = finite (x / y) := if_neg hy

@[simp] theorem finite_lt : finite x < finite y ↔ x < y := Iff.rfl

@[simp] theorem finite_le : finite x ≤ finite y ↔ x ≤ y := Iff.rfl

@[simp] theorem exp_finite : Scalar.exp (finite x) = finite (Real.exp x) := rfl

theorem pow_finite (hx : 0 < x) : Scalar.pow (finite x) (finite y) = finite (x ^ y) := if_pos hx

@[simp] theorem ofNat_finite (n : Nat) : (Scalar.ofNat n : Unrounded) = finite n := rfl

theorem ofScientific_finite (mantissa : Nat) (negative : Bool) (exponent : Nat) :
    (OfScientific.ofScientific mantissa negative exponent : Unrounded) =
      finite (OfScientific.ofScientific mantissa negative exponent) := rfl

@[simp] theorem zero_eq : (0.0 : Unrounded) = finite 0 := by
  rw [ofScientific_finite]
  norm_num

@[simp] theorem one_eq : (1.0 : Unrounded) = finite 1 := by
  rw [ofScientific_finite]
  norm_num

theorem isFinite_iff {a : Unrounded} : Scalar.isFinite a = true ↔ ∃ x, a = finite x := by
  cases a with
  | finite x => exact iff_of_true rfl ⟨x, rfl⟩
  | infinite s => exact iff_of_false nofun nofun
  | undefined => exact iff_of_false nofun nofun

/-- What is greater than zero is finite and positive, or infinite. -/
theorem pos_cases {a : Unrounded} (ha : 0.0 < a) :
    (∃ x, 0 < x ∧ a = finite x) ∨ a = infinite true := by
  rw [zero_eq] at ha
  cases a with
  | finite x => exact Or.inl ⟨x, ha, rfl⟩
  | infinite s =>
    cases (ha : s = true)
    exact Or.inr rfl
  | undefined => exact absurd ha id

/-- The share of a count in another is a finite number, zero when there was nothing to count. -/
theorem fraction_finite (count total : Nat) :
    (Scalar.fraction count total : Unrounded) = finite (count / total) := by
  unfold Scalar.fraction
  split
  next hnone => rw [zero_eq, hnone, Nat.cast_zero, div_zero]
  next hsome => rw [ofNat_finite, ofNat_finite, finite_div (Nat.cast_ne_zero.mpr hsome)]

theorem clamp_finite {lo hi : ℝ} (h : lo ≤ hi) (x : ℝ) :
    Scalar.clamp (finite x) (finite lo) (finite hi) = finite (max lo (min x hi)) := by
  unfold Scalar.clamp
  split
  next hlow => rw [max_eq_left (min_le_of_left_le (finite_lt.mp hlow).le)]
  next hlow =>
    have hlow' : lo ≤ x := not_lt.mp hlow
    split
    next hhigh => rw [min_eq_right (finite_lt.mp hhigh).le, max_eq_right h]
    next hhigh => rw [min_eq_left (not_lt.mp hhigh), max_eq_right hlow']

end Unrounded

end ThermalSearch
