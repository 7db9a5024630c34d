import Mathlib.Tactic.Linarith
import Mathlib.Tactic.Ring
import ThermalSearch.Model.Qubo

/-!
# The upper triangle of a matrix, row after row

Row `i` of the triangle has the columns from `i` on. It starts at `rowStart n i`, and the next one
starts after its `n - i` entries, so the offset of an entry tells its row and its column.
-/

namespace ThermalSearch.Qubo

/-- Where row `i` starts, with the entry on the diagonal. -/
def rowStart (n i : Nat) : Nat := i * (2 * n - i - 1) / 2 + i

/-- The offset of the entry named by `(i, j)` and `(j, i)`. -/
def offset (n i j : Nat) : Nat := min i j * (2 * n - min i j - 1) / 2 + max i j

/-- How many entries there are. -/
def cells (n : Nat) : Nat := n * (n + 1) / 2

variable {n i j i' j' : Nat}

theorem offset_comm (n i j : Nat) : offset n i j = offset n j i := by
  unfold offset
  rw [Nat.min_comm, Nat.max_comm]

theorem offset_min_max (n i j : Nat) : offset n (min i j) (max i j) = offset n i j := by
  rcases Nat.le_total i j with hij | hij
  · rw [Nat.min_eq_left hij, Nat.max_eq_right hij]
  · rw [Nat.min_eq_right hij, Nat.max_eq_left hij, offset_comm]

theorem offset_eq_rowStart_add (hij : i ≤ j) : offset n i j = rowStart n i + (j - i) := by
  unfold offset rowStart
  rw [Nat.min_eq_left hij, Nat.max_eq_right hij]
  omega

theorem rowStart_succ (hi : i < n) : rowStart n (i + 1) = rowStart n i + (n - i) := by
  obtain ⟨m, rfl⟩ : ∃ m, n = i + 1 + m := ⟨n - (i + 1), by omega⟩
  have hwidth : 2 * (i + 1 + m) - i - 1 = i + 1 + 2 * m := by omega
  have hwidth' : 2 * (i + 1 + m) - (i + 1) - 1 = i + 2 * m := by omega
  -- twice the entries above row `i + 1`
  have habove : (i + 1) * (i + 2 * m) = i * (i + 1 + 2 * m) + 2 * m := by ring
  unfold rowStart
  rw [hwidth, hwidth', habove]
  omega

theorem rowStart_le_rowStart (hii : i ≤ i') (hi : i' ≤ n) : rowStart n i ≤ rowStart n i' := by
  induction i', hii using Nat.le_induction with
  | base => exact Nat.le_refl _
  | succ k hk ih =>
    have hk' : k < n := hi
    rw [rowStart_succ hk']
    exact Nat.le_add_right_of_le (ih (Nat.le_of_lt hk'))

/-- After the last row there is nothing left. -/
theorem rowStart_self (n : Nat) : rowStart n n = cells n := by
  cases n with
  | zero => rfl
  | succ k =>
    have hwidth : 2 * (k + 1) - (k + 1) - 1 = k := by omega
    have hsquare : (k + 1) * (k + 1 + 1) = (k + 1) * k + 2 * (k + 1) := by ring
    unfold rowStart cells
    rw [hwidth, hsquare]
    omega

/-- An entry lies before the start of any later row. -/
theorem offset_lt_rowStart (hij : i ≤ j) (hj : j < n) (hii : i < i') (hi : i' ≤ n) :
    offset n i j < rowStart n i' := by
  have hnext : rowStart n i + (n - i) ≤ rowStart n i' := by
    rw [← rowStart_succ (Nat.lt_of_le_of_lt hij hj)]
    exact rowStart_le_rowStart hii hi
  rw [offset_eq_rowStart_add hij]
  omega

theorem offset_lt (hi : i < n) (hj : j < n) : offset n i j < cells n := by
  rw [← rowStart_self]
  rcases Nat.le_total i j with hij | hij
  · exact offset_lt_rowStart hij hj hi (Nat.le_refl n)
  · rw [offset_comm]
    exact offset_lt_rowStart hij hi hj (Nat.le_refl n)

/-- No two entries share an offset. -/
theorem offset_injective (hij : i ≤ j) (hj : j < n) (hij' : i' ≤ j') (hj' : j' < n)
    (h : offset n i j = offset n i' j') : i = i' ∧ j = j' := by
  rcases Nat.lt_trichotomy i i' with hlt | rfl | hlt
  · have hbefore := offset_lt_rowStart hij hj hlt (by omega)
    rw [h, offset_eq_rowStart_add hij'] at hbefore
    omega
  · rw [offset_eq_rowStart_add hij, offset_eq_rowStart_add hij'] at h
    omega
  · have hbefore := offset_lt_rowStart hij' hj' hlt (by omega)
    rw [← h, offset_eq_rowStart_add hij] at hbefore
    omega

/-! ## Offsets in 64 bits -/

/-- An offset that is computed is the right one. -/
theorem of_cell_eq_ok {c : Nat} (h : cell n i j = .ok c) : i < n ∧ j < n ∧ c = offset n i j := by
  unfold cell at h
  split at h
  next hin =>
    rcases bind_eq_ok_iff.mp h with ⟨twice, htwice, h⟩
    rcases bind_eq_ok_iff.mp h with ⟨rest, hrest, h⟩
    rcases bind_eq_ok_iff.mp h with ⟨width, hwidth, h⟩
    rcases bind_eq_ok_iff.mp h with ⟨above, habove, h⟩
    refine ⟨hin.1, hin.2, ?_⟩
    rw [(Word.add_eq_ok_iff.mp h).2, (Word.mul_eq_ok_iff.mp habove).2,
      (Word.sub_eq_ok_iff.mp hwidth).2, (Word.sub_eq_ok_iff.mp hrest).2,
      (Word.mul_eq_ok_iff.mp htwice).2]
    rfl
  next => cases h

/-- There is an offset for every entry of a triangle that fits. -/
theorem cell_eq_ok (hi : i < n) (hj : j < n) (hfits : n * (n + 1) < 2 ^ 64) :
    cell n i j = .ok (offset n i j) := by
  have hlow : min i j < n := Nat.lt_of_le_of_lt (Nat.min_le_left i j) hi
  have htwice : 2 * n < 2 ^ 64 := by nlinarith
  have habove : min i j * (2 * n - min i j - 1) < 2 ^ 64 := by
    obtain ⟨m, hm⟩ : ∃ m, n = min i j + 1 + m := ⟨n - (min i j + 1), by omega⟩
    have hwidth : 2 * n - min i j - 1 = min i j + 1 + 2 * m := by omega
    rw [hwidth]
    nlinarith
  have hcell : offset n i j < 2 ^ 64 := by
    have hlt : offset n i j < n * (n + 1) / 2 := offset_lt hi hj
    omega
  unfold cell
  rw [if_pos ⟨hi, hj⟩]
  refine bind_eq_ok_iff.mpr ⟨_, Word.mul_eq_ok_iff.mpr ⟨htwice, rfl⟩, ?_⟩
  refine bind_eq_ok_iff.mpr ⟨_, Word.sub_eq_ok_iff.mpr ⟨by omega, rfl⟩, ?_⟩
  refine bind_eq_ok_iff.mpr ⟨_, Word.sub_eq_ok_iff.mpr ⟨by omega, rfl⟩, ?_⟩
  refine bind_eq_ok_iff.mpr ⟨_, Word.mul_eq_ok_iff.mpr ⟨habove, rfl⟩, ?_⟩
  exact Word.add_eq_ok_iff.mpr ⟨hcell, rfl⟩

end ThermalSearch.Qubo
