import ThermalSearch.Proofs.Box
import ThermalSearch.Proofs.Scalar.Operations

/-!
# Steps that can be made

A step of a uniform size draws from a range that is twice as wide. The size is finite when it is accepted,
but the width need not be: it overflows from `2 ^ 1023` on (`isFinite_width_iff`), and there no number can
be moved. Below that, a step can be made on every state, bounded or not, and leaves all coordinates but
one as they are (`steps_below_overflow`).
-/

namespace ThermalSearch

/-! ## Widths -/

namespace Binary64

/-- The width of a symmetric range. -/
theorem isFinite_width_iff {x : Float} (hx : x.isFinite) (hpos : 0 < value x) :
    (x - -x).isFinite ↔ value x < 2 ^ 1023 := by
  have hwidth : IsRounded (x - -x) (2 * value x) := by
    have hsub := isRounded_sub hx (isFinite_neg hx)
    rwa [value_neg hx, sub_neg_eq_add, ← two_mul] at hsub
  exact hwidth.isFinite_double_iff hx hpos

end Binary64

open Binary64

/-! ## Moving one number -/

namespace UniformStep

variable {s : UniformStep Float}

/-- Below the overflow every number can be moved. -/
theorem exists_shift_of_lt (hsize : Positive s.size) (hlt : value s.size < 2 ^ 1023) (x : Float)
    (g : Generator) : ∃ moved, s.shift x g = .ok moved :=
  s.exists_shift (isFinite_neg hsize.finite) hsize.finite
    ((isFinite_width_iff hsize.finite hsize.pos).mpr hlt) x g

/-- From the overflow on none can. -/
theorem shift_eq_error (hsize : Positive s.size) (hle : 2 ^ 1023 ≤ value s.size) (x : Float)
    (g : Generator) : s.shift x g = .error .unboundedRange := by
  have hneg : (-s.size).isFinite := isFinite_neg hsize.finite
  have hlt : -s.size < s.size := by
    rw [lt_iff_value_lt hneg hsize.finite, value_neg hsize.finite]
    exact neg_lt_self hsize.pos
  have hwidth : Scalar.isFinite (s.size - -s.size) = false := by
    refine Bool.eq_false_iff.mpr (fun hfinite => ?_)
    exact absurd ((isFinite_width_iff hsize.finite hsize.pos).mp hfinite) hle.not_gt
  have hdraw : g.uniform (-s.size) s.size = .error .unboundedRange := by
    unfold Generator.uniform
    simp only [if_pos hlt, hwidth, Bool.and_false, Bool.false_eq_true, if_false]
  unfold shift
  rw [hdraw]
  rfl

end UniformStep

/-! ## Result -/

/-- What comes of proposing a state next to a given one by steps of a given size: another state that
differs in one coordinate at most, or no state at all. -/
structure StepsBelowOverflow (size : Float) (propose : Proposal Float) : Prop where
  steps : ∀ state g, state = [] ∨ value size < 2 ^ 1023 →
    ∃ next g', propose state g = .ok (next, g') ∧ next.length = state.length ∧
      ∃ i : Nat, ∀ k : Nat, k ≠ i → next[k]? = state[k]?
  fails : ∀ state g, state ≠ [] → 2 ^ 1023 ≤ value size →
    propose state g = .error .unboundedRange

/-- A change of one coordinate does so if it is made by moving a number. -/
theorem stepsBelowOverflow_changeOne {size : Float}
    {change : Nat → Float → Generator → Except Fault (Float × Generator)}
    (hmoves : value size < 2 ^ 1023 → ∀ i x g, ∃ moved, change i x g = .ok moved)
    (hfails : 2 ^ 1023 ≤ value size → ∀ i x g, change i x g = .error .unboundedRange) :
    StepsBelowOverflow size (changeOne change) := by
  refine ⟨fun state g hmovable => ?_,
    fun state g hstate hle => changeOne_eq_error (hfails hle) hstate g⟩
  have hmoved : ∃ moved, changeOne change state g = .ok moved := by
    rcases hmovable with rfl | hlt
    · exact ⟨_, if_pos rfl⟩
    · exact exists_changeOne (hmoves hlt) state g
  obtain ⟨⟨next, g'⟩, hnext⟩ := hmoved
  exact ⟨next, g', hnext, length_changeOne hnext, unchanged_changeOne hnext⟩

/-- Uniform and bounded steps of an accepted size `s` can be made on every state while `2 * s` does not
overflow, that is while `s < 2 ^ 1023`, and change one coordinate at most; from there on, they fail on every
state that has a coordinate. The bounds of a bounded step are in order. -/
theorem steps_below_overflow (size : Float) :
    (∀ s : UniformStep Float, UniformStep.ofSize size = .ok s →
      StepsBelowOverflow size s.propose) ∧
    ∀ (lower upper : List Float) (s : BoundedStep Float),
      BoundedStep.ofBounds size lower upper = .ok s →
        StepsBelowOverflow size s.propose ∧
        ∀ (k : Nat) lo hi, s.lower[k]? = some lo → s.upper[k]? = some hi → lo ≤ hi := by
  constructor
  · intro s hstep
    obtain ⟨hfinite, hpos, rfl⟩ := UniformStep.ofSize_eq_ok_iff.mp hstep
    have hsize : Positive size := positive_of_accepted hfinite hpos
    refine stepsBelowOverflow_changeOne ?_ ?_
    · intro hlt i x g
      exact UniformStep.exists_shift_of_lt hsize hlt x g
    · intro hle i x g
      exact UniformStep.shift_eq_error hsize hle x g
  · intro lower upper s hstep
    obtain ⟨hfinite, hpos, -, hbounds, rfl⟩ := BoundedStep.ofBounds_eq_ok_iff.mp hstep
    have hsize : Positive size := positive_of_accepted hfinite hpos
    refine ⟨stepsBelowOverflow_changeOne ?_ ?_, fun k lo hi hlo hhi => (hbounds k lo hi hlo hhi).le⟩
    · intro hlt i x g
      obtain ⟨⟨y, g'⟩, hshift⟩ := UniformStep.exists_shift_of_lt (s := { size }) hsize hlt x g
      exact ⟨_, bind_eq_ok_iff.mpr ⟨_, hshift, rfl⟩⟩
    · intro hle i x g
      have hshift := UniformStep.shift_eq_error (s := { size }) hsize hle x g
      simp only [hshift]
      rfl

/-- The least size that is too great. -/
def halfway : Float := Float.ofBits 0x7fe0000000000000

theorem value_halfway : value halfway = 2 ^ 1023 := by
  have hunpack : halfway.toModel.unpack = .finite .positive (2 ^ 52) 971 (by norm_num) := by rfl
  rw [value_of_unpack hunpack, two_pow_eq_full, Nat.cast_pow, Nat.cast_ofNat]

theorem value_quarter_lt : value 0.25 < 2 ^ 1023 := by
  have hunpack : (0.25 : Float).toModel.unpack = .finite .positive (2 ^ 52) (-54) (by norm_num) := by
    rfl
  rw [value_of_unpack hunpack, two_pow_eq_full, Nat.cast_pow, Nat.cast_ofNat]
  gcongr
  · norm_num
  · norm_num

/-- From a state with a free coordinate, steps of size 1/4 can be made, bounded or not, and steps of
size `2 ^ 1023` cannot. -/
theorem steps_below_overflow_corner :
    UniformStep.ofSize 0.25 = .ok corner.step ∧
    BoundedStep.ofBounds 0.25 corner.lower corner.upper = .ok corner ∧
    UniformStep.ofSize halfway = .ok { size := halfway } ∧
    (∃ next g', corner.step.propose [0.5, 3.0, 7.0] (Generator.ofSeed 1) = .ok (next, g') ∧
      next.length = 3) ∧
    (∃ next g', corner.propose [0.5, 3.0, 7.0] (Generator.ofSeed 1) = .ok (next, g') ∧
      next.length = 3) ∧
    UniformStep.propose { size := halfway } [0.5, 3.0, 7.0] (Generator.ofSeed 1) =
      .error .unboundedRange := by
  have hstep : UniformStep.ofSize 0.25 = .ok corner.step := by rfl
  have hbounded : BoundedStep.ofBounds 0.25 corner.lower corner.upper = .ok corner := by rfl
  have hwide : UniformStep.ofSize halfway = .ok { size := halfway } := by rfl
  obtain ⟨huniform, hbounds⟩ := steps_below_overflow 0.25
  obtain ⟨next, g', hnext, hlength, -⟩ := (huniform corner.step hstep).steps [0.5, 3.0, 7.0]
    (Generator.ofSeed 1) (Or.inr value_quarter_lt)
  obtain ⟨next', g'', hnext', hlength', -⟩ :=
    (hbounds corner.lower corner.upper corner hbounded).1.steps [0.5, 3.0, 7.0]
      (Generator.ofSeed 1) (Or.inr value_quarter_lt)
  exact ⟨hstep, hbounded, hwide, ⟨next, g', hnext, hlength⟩, ⟨next', g'', hnext', hlength'⟩,
    ((steps_below_overflow halfway).1 _ hwide).fails _ _ (List.cons_ne_nil _ _) value_halfway.ge⟩

end ThermalSearch
