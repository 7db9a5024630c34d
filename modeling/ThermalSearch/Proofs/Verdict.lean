import ThermalSearch.Acceptance
import ThermalSearch.Proofs.Scalar.Exact

/-!
# Verdicts

What a rule prescribes settles with which draws a proposal is accepted (`Verdict.Accepts`) and whether a
number is drawn at all (`Verdict.cost`). Carrying a prescription out does the one with the next draw of
the generator and takes the other from it.
-/

namespace ThermalSearch

namespace Verdict

variable {α : Type}

/-- How many draws it takes to carry a prescription out. -/
def cost : Verdict α → Nat
  | .accept => 0
  | .refuse => 0
  | .chance _ => 1

variable [Scalar α]

/-- Whether a draw leads to acceptance. -/
def Accepts (v : Verdict α) (draw : α) : Prop :=
  match v with
  | .accept => True
  | .refuse => False
  | .chance p => draw < p

/-- A prescription is carried out with the next draw of the generator. -/
theorem decide_iff_accepts (v : Verdict α) (g : Generator) :
    (v.decide g).1 = true ↔ v.Accepts (g.unit : α × Generator).1 := by
  cases v with
  | accept => exact iff_of_true rfl trivial
  | refuse => exact iff_of_false Bool.false_ne_true id
  | chance p => exact decide_eq_true_iff

/-- No draw is wasted. -/
theorem decide_generator (v : Verdict α) (g : Generator) : (v.decide g).2 = g.skip v.cost := by
  cases v with
  | accept => rfl
  | refuse => rfl
  | chance p => rfl

end Verdict

/-- Without rounding a draw is the fraction that the bits of a word make. -/
theorem Generator.value_unit {K : Type} [Field K] [LinearOrder K] [FloorSemiring K]
    {f : Uninterpreted K} (g : Generator) : (g.unit : Exact f × Generator).1.value =
      (g.word.1 >>> 11).toNat / ((2 ^ 53 : Nat) : K) := rfl

end ThermalSearch
