import Mathlib.Analysis.SpecialFunctions.Log.Basic
import Mathlib.Analysis.SpecialFunctions.Pow.Real
import ThermalSearch.Proofs.Scalar.UnitChange

/-!
# Real arithmetic

The real numbers are an ordered field in which exponentials, logarithms, roots and powers have their
meaning. Only an energy worse than any other is left open, for no real number is.
-/

namespace ThermalSearch

/-- The functions of real numbers, with a number to stand for an energy that is infinite. -/
noncomputable def realFunctions (worst : ℝ) : Uninterpreted ℝ where
  exp := Real.exp
  ln := Real.log
  sqrt := Real.sqrt
  pow x y := x ^ y
  infinity := worst

/-- A unit of which the old one is `factor`, with the same zero. -/
noncomputable def UnitChange.scaling (worst : ℝ) {factor : ℝ} (hfactor : 0 < factor) :
    UnitChange (realFunctions worst) where
  scale := factor
  offset := 0
  scale_pos := hfactor
  sqrt_scale x := by
    show √(factor * factor * x) = factor * √x
    rw [Real.sqrt_mul (mul_self_nonneg factor), Real.sqrt_mul_self hfactor.le]

theorem UnitChange.energy_scaling (worst : ℝ) {factor : ℝ} (hfactor : 0 < factor) :
    (scaling worst hfactor).energy = fun e => ⟨factor * e.value⟩ := by
  funext e
  ext
  exact add_zero (factor * e.value)

end ThermalSearch
