import Mathlib.Algebra.BigOperators.Fin
import Mathlib.Algebra.BigOperators.Intervals
import Mathlib.Order.Interval.Finset.Nat
import Mathlib.Tactic.Ring
import ThermalSearch.Model.Qubo

/-!
# What loops add up

The loops of the library run over ranges, over what follows an index and over numbered lists. In
sums the order does not matter, and here the sum of a loop becomes a sum over indices.
-/

namespace ThermalSearch

open Finset

section

variable {β M : Type} [AddCommMonoid M]

theorem sum_map_filter (p : β → Bool) (g : β → M) (l : List β) :
    ((l.filter p).map g).sum = (l.map fun b => if p b then g b else 0).sum := by
  induction l with
  | nil => rfl
  | cons b l ih =>
    rw [List.filter_cons, List.map_cons, List.sum_cons, ← ih]
    cases p b <;> simp

theorem sum_map_flatMap {γ : Type} (f : β → List γ) (g : γ → M) (l : List β) :
    ((l.flatMap f).map g).sum = (l.map fun b => ((f b).map g).sum).sum := by
  induction l with
  | nil => rfl
  | cons b l ih => simp [ih]

theorem sum_map_range (n : Nat) (g : Nat → M) :
    ((List.range n).map g).sum = ∑ i ∈ range n, g i := rfl

theorem sum_map_range' (s n : Nat) (g : Nat → M) :
    ((List.range' s n).map g).sum = ∑ i ∈ Ico s (s + n), g i := by
  rw [← List.toFinset_range'_1, List.sum_toFinset _ List.nodup_range']

theorem sum_map_following (i n : Nat) (g : Nat → M) :
    ((following i n).map g).sum = ∑ j ∈ Ico (i + 1) n, g j := by
  have hsame : Ico (i + 1) (i + 1 + (n - (i + 1))) = Ico (i + 1) n := by
    ext j
    simp only [mem_Ico]
    omega
  rw [following, sum_map_range', hsame]

theorem sum_map_zipIdx (l : List β) (g : β × Nat → M) :
    (l.zipIdx.map g).sum = ∑ i : Fin l.length, g (l[i], i) := by
  rw [← List.sum_ofFn]
  congr 1
  apply List.ext_getElem <;> simp

/-- Along the rows of a table. -/
theorem sum_range_mul (rows width : Nat) (g : Nat → M) :
    ∑ i ∈ range (rows * width), g i = ∑ r ∈ range rows, ∑ c ∈ range width, g (r * width + c) := by
  induction rows with
  | zero => simp
  | succ rows ih => rw [Nat.succ_mul, sum_range_add, ih, sum_range_succ]

/-- Off the diagonal of a square table, each pair of indices is met from either side. -/
theorem sum_off_diagonal (n : Nat) (g : Nat → Nat → M) :
    ∑ i ∈ range n, ∑ j ∈ range n, (if j ≠ i then g i j else 0) =
      ∑ i ∈ range n, ∑ j ∈ Ico (i + 1) n, (g i j + g j i) := by
  induction n with
  | zero => simp
  | succ n ih =>
    -- the last column has the pairs of the last index from one side, the last row from the other
    have hcolumn : ∀ i ∈ range n, ∑ j ∈ range (n + 1), (if j ≠ i then g i j else 0) =
        ∑ j ∈ range n, (if j ≠ i then g i j else 0) + g i n := by
      intro i hi
      rw [sum_range_succ, if_pos (Nat.ne_of_gt (mem_range.mp hi))]
    have hrow : ∑ j ∈ range (n + 1), (if j ≠ n then g n j else 0) = ∑ j ∈ range n, g n j := by
      rw [sum_range_succ, if_neg (not_not.mpr rfl), add_zero]
      exact sum_congr rfl fun j hj => if_pos (Nat.ne_of_lt (mem_range.mp hj))
    have hpairs : ∀ i ∈ range n, ∑ j ∈ Ico (i + 1) (n + 1), (g i j + g j i) =
        ∑ j ∈ Ico (i + 1) n, (g i j + g j i) + (g i n + g n i) := by
      intro i hi
      exact sum_Ico_succ_top (mem_range.mp hi) _
    rw [sum_range_succ, hrow, sum_congr rfl hcolumn, sum_add_distrib, ih, sum_range_succ,
      sum_congr rfl hpairs, sum_add_distrib, sum_add_distrib, Ico_self, sum_empty, add_zero,
      add_assoc]

end

/-- The pairs among numbers that are zero or one, each pair of ones counted twice. -/
theorem two_mul_sum_pairs {R : Type} [CommRing R] {a : Nat → R} (ha : ∀ i, a i * a i = a i)
    (s n : Nat) :
    2 * ∑ v ∈ Ico s (s + n), ∑ w ∈ Ico (v + 1) (s + n), a v * a w =
      (∑ v ∈ Ico s (s + n), a v) ^ 2 - ∑ v ∈ Ico s (s + n), a v := by
  induction n generalizing s with
  | zero => simp
  | succ n ih =>
    -- the first number apart, with its pairs
    have hfirst : s < s + (n + 1) := by omega
    have hend : s + (n + 1) = s + 1 + n := by omega
    have hrest := ih (s + 1)
    rw [sum_eq_sum_Ico_succ_bot hfirst, sum_eq_sum_Ico_succ_bot hfirst, hend, ← mul_sum, mul_add,
      hrest, add_sq, sq (a s), ha]
    ring

end ThermalSearch
