import ThermalSearch.Proofs.Model.CouplingWrites
import ThermalSearch.Proofs.Model.Entries
import ThermalSearch.Proofs.Model.SpinModel
import ThermalSearch.Proofs.Scalar.Accumulation

/-!
# Spin models of finite numbers

A coupling is a quarter of one coefficient, and finite where the coefficient is. A field collects a
whole row of the QUBO and the energy of a state collects all fields, so that these may leave the range
although every coefficient is in it. They do not where the coefficients of the row, or three times those
of all rows, sum up to a number in range (`within_spinField`, `within_energy`).

The table of couplings is written on both sides of its diagonal, which stays empty
(`isSymmetric_of_toIsing`), so what holds of the couplings of the QUBO holds of the whole table.
-/

namespace ThermalSearch

section

variable {α : Type} [Scalar α]

/-- Every coefficient is an entry of the table, and every entry a coefficient. -/
theorem Qubo.isFinite_iff {q : Qubo α} (hfits : q.Fits) :
    q.isFinite = true ↔
      ∀ i j, i ≤ j → j < q.size → Scalar.isFinite (q.coefficient i j) = true := by
  unfold Qubo.isFinite
  rw [Array.all_eq_true]
  have hentry : ∀ c (hc : c < q.entries.size), q.entries.getD c 0.0 = q.entries[c] := by
    intro c hc
    rw [Array.getD_eq_getD_getElem?, Array.getElem?_eq_getElem hc, Option.getD_some]
  constructor
  · intro hall i j hij hj
    have hplace : offset q.size i j < q.entries.size :=
      hfits.cells ▸ offset_lt (Nat.lt_of_le_of_lt hij hj) hj
    unfold coefficient
    rw [hentry _ hplace]
    exact hall _ hplace
  · intro hall c hc
    obtain ⟨i, j, hij, hj, rfl⟩ := exists_offset (Nat.le_refl q.size)
      (rowStart_self q.size ▸ hfits.cells ▸ hc)
    rw [← hentry _ hc]
    exact hall i j hij hj

/-- From either side of the diagonal. -/
theorem Qubo.isFinite_coefficient {q : Qubo α} (hfits : q.Fits) (hfinite : q.isFinite = true)
    {i j : Nat} (hi : i < q.size) (hj : j < q.size) :
    Scalar.isFinite (q.coefficient i j) = true := by
  rcases Nat.le_total i j with hij | hij
  · exact (isFinite_iff hfits).mp hfinite i j hij hj
  · rw [coefficient_comm]
    exact (isFinite_iff hfits).mp hfinite j i hij hi

namespace Ising

/-! ## Both sides of the diagonal -/

/-- Couplings are the same from either side, and no spin is coupled to itself. -/
structure IsSymmetric (m : Ising α) : Prop where
  fits : m.Fits
  mirrored : ∀ i j, i < m.size → j < m.size → m.couplingOf i j = m.couplingOf j i
  diagonal : ∀ i < m.size, m.couplingOf i i = 0.0

end Ising

/-- The spin model is written pair by pair. -/
theorem Qubo.isSymmetric_of_toIsing {q : Qubo α} {m : Ising α} (hfits : q.Fits)
    (h : q.toIsing = .ok m) : m.IsSymmetric ∧ m.size = q.size := by
  have hmirrored : q.IsMirroredBy m := isMirroredBy_of_toIsing hfits h
  obtain ⟨start, hstart, hwrites⟩ := writeAll_of_toIsing hfits h
  have hrecords := Ising.records_of_writeAll hstart hwrites
  rw [← hmirrored.size] at hrecords
  exact ⟨⟨hmirrored.fits, fun _ _ hi hj => hrecords.entry_comm hi hj, hrecords.diagonal⟩,
    hmirrored.size⟩

end

/-! ## Sizes of couplings and fields -/

namespace Qubo

open Finset Binary64

variable {q : Qubo Float} {m : Ising Float} {i j : Nat}

/-- The coefficients of one bit, with itself and with the others, by their sizes. -/
noncomputable def rowWeight (q : Qubo Float) (i : Nat) : ℝ :=
  ∑ j ∈ range q.size, |value (q.coefficient i j)|

/-- The coefficients of all bits. Those of two bits count for either. -/
noncomputable def weight (q : Qubo Float) : ℝ := ∑ i ∈ range q.size, q.rowWeight i

theorem rowWeight_nonneg (q : Qubo Float) (i : Nat) : 0 ≤ q.rowWeight i :=
  sum_nonneg fun _ _ => abs_nonneg _

theorem within_coefficient (hfits : q.Fits) (hfinite : q.isFinite = true) (hi : i < q.size)
    (hj : j < q.size) : Within |value (q.coefficient i j)| (q.coefficient i j) :=
  within_abs (isFinite_coefficient hfits hfinite hi hj)

theorem within_spinCoupling (hfits : q.Fits) (hfinite : q.isFinite = true) (hi : i < q.size)
    (hj : j < q.size) : Within (|value (q.coefficient i j)| / 2) (q.spinCoupling i j) :=
  (within_coefficient hfits hfinite hi hj).neg.quarter

/-- The whole table of couplings is finite. -/
theorem isFinite_coupling (hfits : q.Fits) (hfinite : q.isFinite = true) (hm : q.toIsing = .ok m)
    (hi : i < q.size) (hj : j < q.size) : (m.couplingOf i j).isFinite := by
  have hmirrored : q.IsMirroredBy m := isMirroredBy_of_toIsing hfits hm
  obtain ⟨hsymmetric, hsize⟩ := isSymmetric_of_toIsing hfits hm
  rcases Nat.lt_trichotomy i j with hlt | rfl | hgt
  · rw [hmirrored.coupling i j hlt hj trivial]
    exact (within_spinCoupling hfits hfinite hi hj).finite
  · rw [hsymmetric.diagonal i (hsize ▸ hi)]
    rfl
  · rw [hsymmetric.mirrored i j (hsize ▸ hi) (hsize ▸ hj), hmirrored.coupling j i hgt hi trivial]
    exact (within_spinCoupling hfits hfinite hj hi).finite

/-- A half of the coefficient on the diagonal and a quarter of each other one of the row. -/
theorem within_spinField (hfits : q.Fits) (hfinite : q.isFinite = true) (hi : i < q.size)
    (hrange : q.rowWeight i ≤ greatest) : Within (q.rowWeight i) (q.spinField i) := by
  have hrow : q.rowWeight i = |value (q.coefficient i i)| +
      ((List.range q.size).map fun j => if j ≠ i then |value (q.coefficient i j)| else 0).sum := by
    rw [sum_map_range, ← sum_filter, filter_ne']
    exact (add_sum_erase _ (fun j => |value (q.coefficient i j)|) (mem_range.mpr hi)).symm
  have hstart : Within |value (q.coefficient i i)| (-q.coefficient i i / 2.0) :=
    (within_coefficient hfits hfinite hi hi).neg.half
  rw [hrow] at hrange ⊢
  -- the loop goes through the whole row and leaves out the diagonal
  refine within_foldl ?_ ?_ hstart hrange
  · intro h b j hj hh hstep
    by_cases hji : j ≠ i
    · rw [if_pos hji] at hstep ⊢
      rw [if_pos hji]
      have hquarter := (within_coefficient hfits hfinite hi (List.mem_range.mp hj)).quarter
      exact hh.sub_of_half hquarter hstep
    · rw [if_neg hji, if_neg hji, add_zero]
      exact hh
  · intro j _
    split
    · exact abs_nonneg _
    · exact le_rfl

/-! ## Sizes of energies -/

variable {s : State Float}

/-- The coefficients of a bit with the bits after it. -/
noncomputable def laterWeight (q : Qubo Float) (i : Nat) : ℝ :=
  ((following i q.size).map fun j => |value (q.coefficient i j)|).sum

theorem laterWeight_nonneg (q : Qubo Float) (i : Nat) : 0 ≤ q.laterWeight i :=
  List.sum_nonneg (List.forall_mem_map.mpr fun _ _ => abs_nonneg _)

theorem laterWeight_le (q : Qubo Float) (i : Nat) : q.laterWeight i ≤ q.rowWeight i := by
  rw [laterWeight, sum_map_following]
  refine sum_le_sum_of_subset_of_nonneg ?_ fun _ _ _ => abs_nonneg _
  intro j hj
  exact mem_range.mpr (mem_Ico.mp hj).2

/-- What a row takes off an energy: the field on its spin, which is rounded and counts twice, and its
couplings with the spins after it. -/
noncomputable def rowShare (q : Qubo Float) (i : Nat) : ℝ :=
  q.rowWeight i + q.rowWeight i + q.laterWeight i

theorem rowShare_nonneg (q : Qubo Float) (i : Nat) : 0 ≤ q.rowShare i :=
  add_nonneg (add_nonneg (q.rowWeight_nonneg i) (q.rowWeight_nonneg i)) (q.laterWeight_nonneg i)

/-- A row counts twice for its field and once for its couplings. -/
theorem sum_rowShare_le (q : Qubo Float) :
    ((List.range q.size).map q.rowShare).sum ≤ 3 * q.weight := by
  rw [sum_map_range, weight, mul_sum]
  refine sum_le_sum fun i _ => ?_
  have hlater := q.laterWeight_le i
  unfold rowShare
  linarith

theorem within_lessRow (hfits : q.Fits) (hfinite : q.isFinite = true) (hm : q.IsMirroredBy m)
    (hs : s.IsSpins) (hlength : s.length = q.size) (hi : i < q.size) {b : ℝ} {energy : Float}
    (henergy : Within b energy) (hrange : b + q.rowShare i ≤ greatest) :
    Within (b + q.rowShare i) (m.lessRow s energy i) := by
  have hspin : ∀ k < q.size, s.getD k 0.0 = 1.0 ∨ s.getD k 0.0 = -(1.0) := by
    intro k hk
    rw [List.getD_eq_getElem _ _ (hlength ▸ hk)]
    exact hs _ (List.getElem_mem _)
  have hb : 0 ≤ b := (abs_nonneg _).trans henergy.le
  have hrow : 0 ≤ q.rowWeight i := q.rowWeight_nonneg i
  have hrest : 0 ≤ q.laterWeight i := q.laterWeight_nonneg i
  rw [rowShare, ← two_mul, ← add_assoc] at hrange ⊢
  -- first the field, then one coupling after the other
  have hfield := within_spinField hfits hfinite hi (by linarith)
  have hpulled := henergy.sub (hfield.mul_unit (hspin i hi)) (by linarith)
  rw [← hm.field i hi trivial] at hpulled
  unfold Ising.lessRow
  rw [hlength]
  refine within_foldl ?_ (fun _ _ => abs_nonneg _) hpulled hrange
  intro e b j hj he hstep
  obtain ⟨hij, hj'⟩ := mem_following.mp hj
  have hcoupling := within_spinCoupling hfits hfinite hi hj'
  rw [← hm.coupling i j hij hj' trivial] at hcoupling
  exact he.sub_of_half ((hcoupling.mul_unit (hspin i hi)).mul_unit (hspin j hj')) hstep

/-- The energy of spins is in range if three times the coefficients are. -/
theorem within_energy (hfits : q.Fits) (hfinite : q.isFinite = true) (hm : q.IsMirroredBy m)
    (hs : s.IsSpins) (hlength : s.length = q.size) (hrange : 3 * q.weight ≤ greatest) :
    ∃ energy, m.energy s = .ok energy ∧ Within (3 * q.weight) energy := by
  have hshares := sum_rowShare_le q
  have hall : s.take m.size = s := List.take_of_length_le (hlength.trans hm.size.symm).le
  refine ⟨_, Ising.energy_eq_ok hm.fits s, ?_⟩
  rw [hall, hlength]
  have hsum : Within (0 + ((List.range q.size).map q.rowShare).sum)
      ((List.range q.size).foldl (m.lessRow s) 0.0) := by
    refine within_foldl ?_ (fun i _ => q.rowShare_nonneg i) within_zero (by linarith)
    intro e b i hi he
    exact within_lessRow hfits hfinite hm hs hlength (List.mem_range.mp hi) he
  exact hsum.mono (by linarith)

end Qubo

end ThermalSearch
