import Mathlib.Algebra.Order.Field.Basic
import ThermalSearch.Annealing.Config
import ThermalSearch.Proofs.Scalar.Exact
import ThermalSearch.Tempering.Config

/-!
# Settings that are accepted

A check of settings goes through their rules one by one and stops at the first one broken. Settings
pass when they break none, and the standard settings do.
-/

namespace ThermalSearch

section

variable {α : Type} [Scalar α]

/-- All numbers are finite, the temperature falls, and factors and fractions are in their ranges. -/
theorem Annealing.Config.validate_eq_ok_iff {c : Annealing.Config α} :
    c.validate = .ok () ↔
      (Scalar.isFinite c.initialTemperature ∧ Scalar.isFinite c.finalTemperature ∧
        Scalar.isFinite c.alpha ∧ Scalar.isFinite c.reheatFraction ∧
        Scalar.isFinite c.huangLambda) ∧
      ¬ c.finalTemperature ≤ 0.0 ∧ ¬ c.initialTemperature ≤ c.finalTemperature ∧
      ¬ c.alpha ≤ 0.0 ∧ ¬ 1.0 ≤ c.alpha ∧ ¬ c.reheatFraction ≤ 0.0 ∧ ¬ 1.0 < c.reheatFraction ∧
      ¬ c.huangLambda ≤ 0.0 := by
  simp only [validate, check_eq_ok_iff, requireFinite_eq_ok_iff, refuseIf_eq_ok_iff,
    Bool.or_eq_false_iff, decide_eq_false_iff_not, and_assoc, ge_iff_le, gt_iff_lt]

/-- Both temperatures are finite, and the range between them is not empty. -/
theorem Tempering.Config.validate_eq_ok_iff {c : Tempering.Config α} :
    c.validate = .ok () ↔
      (Scalar.isFinite c.minTemperature ∧ Scalar.isFinite c.maxTemperature) ∧
        ¬ c.minTemperature ≤ 0.0 ∧ ¬ c.maxTemperature ≤ c.minTemperature := by
  simp only [validate, check_eq_ok_iff, requireFinite_eq_ok_iff, refuseIf_eq_ok_iff,
    decide_eq_false_iff_not, and_assoc, ge_iff_le]

omit [Scalar α] in
/-- The replicas and a trace have to fit into memory. The rest of what grows with the replicas takes
less room than they do. -/
theorem Tempering.Config.reserve_eq_ok_iff {c : Tempering.Config α} :
    c.reserve = .ok () ↔ c.effectiveReplicas * 400 < 2 ^ 63 ∧ c.totalSwaps * 8 < 2 ^ 63 := by
  have hhalf : UInt64.size / 2 = 2 ^ 63 := by decide
  have hreplica : Replica.words = 50 := rfl
  have htally : Tally.words = 4 := rfl
  have hheader : Table.header = 3 := rfl
  unfold reserve
  simp only [check_eq_ok_iff, Table.reserve_eq_ok_iff, hhalf, hreplica, htally, hheader]
  omega

theorem Tempering.Config.reserve_standard : (standard : Tempering.Config α).reserve = .ok () :=
  reserve_eq_ok_iff.mpr ⟨(by decide : 8 * 400 < 2 ^ 63), (by decide : 200 * 8 < 2 ^ 63)⟩

end

/-! ## Standard settings -/

variable {K : Type} [Field K] [LinearOrder K] [IsStrictOrderedRing K] [FloorSemiring K]
  {f : Uninterpreted K}

theorem Annealing.Config.validate_standard :
    (standard : Annealing.Config (Exact f)).validate = .ok () := by
  rw [validate_eq_ok_iff]
  simp only [standard, Exact.isFinite_eq_true, Exact.le_iff, Exact.lt_iff,
    Exact.value_ofScientific]
  norm_num

theorem Tempering.Config.validate_standard :
    (standard : Tempering.Config (Exact f)).validate = .ok () := by
  rw [validate_eq_ok_iff]
  simp only [standard, Exact.isFinite_eq_true, Exact.le_iff, Exact.value_ofScientific]
  norm_num

end ThermalSearch
