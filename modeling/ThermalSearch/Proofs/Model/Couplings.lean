import Mathlib.Algebra.Group.Nat.Defs
import ThermalSearch.Model.Couplings

/-!
# Couplings as a symmetric matrix

The table has a cell for each ordered pair of spins, and a coupling is written to both cells of its
pair. Among spins that there are, a write therefore changes one unordered pair and no other
(`set_eq_ok`), although no index is checked on its own.
-/

namespace ThermalSearch

variable {α : Type}

namespace Couplings

/-- There is a cell for each pair of spins, and its offset is a 64-bit number. -/
structure Fits (c : Couplings α) : Prop where
  cells : c.cells.size = c.size * c.size
  words : c.size * c.size < 2 ^ 64

variable {c : Couplings α} {i j : Nat}

theorem cell_eq_ok_iff {cell : Nat} :
    c.cell i j = .ok cell ↔ i * c.size + j < 2 ^ 64 ∧ cell = i * c.size + j :=
  Word.mul_add_eq_ok_iff

theorem Fits.cell_eq_ok (h : c.Fits) (hi : i < c.size) (hj : j < c.size) :
    c.cell i j = .ok (i * c.size + j) :=
  cell_eq_ok_iff.mpr ⟨Nat.lt_trans (Table.offset_lt hi hj) h.words, rfl⟩

/-! ## Building -/

/-- A square table is made whenever one of its size can be reserved. -/
theorem exists_fill_iff {n : Nat} {value : α} :
    (∃ c, fill n value = .ok c) ↔ n * n * 8 < 2 ^ 63 := by
  unfold fill Table.fill
  constructor
  · rintro ⟨c, h⟩
    obtain ⟨cells, hcells, h⟩ := bind_eq_ok_iff.mp h
    obtain ⟨table, htable, -⟩ := bind_eq_ok_iff.mp h
    obtain ⟨⟨⟩, hreserve, -⟩ := bind_eq_ok_iff.mp htable
    rw [(Word.mul_eq_ok_iff.mp hcells).2, Table.reserve_eq_ok_iff, Nat.mul_one] at hreserve
    exact hreserve
  · intro hroom
    have hwords : n * n < 2 ^ 64 := by omega
    refine ⟨{ size := n, cells := Array.replicate (n * n) value }, ?_⟩
    refine bind_eq_ok_iff.mpr ⟨n * n, Word.mul_eq_ok_iff.mpr ⟨hwords, rfl⟩, ?_⟩
    refine bind_eq_ok_iff.mpr ⟨_, bind_eq_ok_iff.mpr ⟨(), ?_, rfl⟩, rfl⟩
    rw [Table.reserve_eq_ok_iff, Nat.mul_one]
    exact hroom

theorem of_fill_eq_ok {n : Nat} {value : α} (h : fill n value = .ok c) : c.size = n ∧ c.Fits := by
  unfold fill Table.fill at h
  obtain ⟨cells, hcells, h⟩ := bind_eq_ok_iff.mp h
  obtain ⟨table, htable, h⟩ := bind_eq_ok_iff.mp h
  obtain ⟨⟨⟩, -, hfill⟩ := bind_eq_ok_iff.mp htable
  cases h
  cases hfill
  obtain ⟨hwords, rfl⟩ := Word.mul_eq_ok_iff.mp hcells
  exact ⟨rfl, Array.size_replicate, hwords⟩

/-- Whatever is written, the table keeps its cells. -/
theorem Fits.of_set_eq_ok {c' : Couplings α} {value : α} (h : c.Fits)
    (hset : c.set i j value = .ok c') : c'.size = c.size ∧ c'.Fits := by
  unfold set at hset
  split at hset
  · cases hset
    exact ⟨rfl, h⟩
  · obtain ⟨_, -, hset⟩ := bind_eq_ok_iff.mp hset
    obtain ⟨half, hhalf, hset⟩ := bind_eq_ok_iff.mp hset
    obtain ⟨_, -, hset⟩ := bind_eq_ok_iff.mp hset
    obtain ⟨cells, hcells, hset⟩ := bind_eq_ok_iff.mp hset
    cases hset
    have hsize : cells.size = c.cells.size :=
      (Table.size_write hcells).trans (Table.size_write hhalf)
    exact ⟨rfl, hsize.trans h.cells, h.words⟩

/-! ## Reading and writing -/

variable [Scalar α]

/-- The coupling of spins `i` and `j`. -/
def entry (c : Couplings α) (i j : Nat) : α := c.cells.getD (i * c.size + j) 0.0

theorem Fits.read_eq_ok (h : c.Fits) (hi : i < c.size) (hj : j < c.size) :
    Table.read c.cells (i * c.size + j) = .ok (c.entry i j) := by
  apply Table.read_eq_ok
  rw [h.cells]
  exact Table.offset_lt hi hj

theorem Fits.get_eq_ok (h : c.Fits) (hi : i < c.size) (hj : j < c.size) :
    c.get i j = .ok (c.entry i j) :=
  bind_eq_ok_iff.mpr ⟨_, h.cell_eq_ok hi hj, h.read_eq_ok hi hj⟩

/-- Coupling two spins changes their coupling, seen from either side, and no other. -/
theorem Fits.set_eq_ok (h : c.Fits) (hi : i < c.size) (hj : j < c.size) (hij : i ≠ j) (value : α) :
    ∃ c', c.set i j value = .ok c' ∧ c'.size = c.size ∧ c'.Fits ∧
      ∀ k l, k < c.size → l < c.size → c'.entry k l =
        if (k = i ∧ l = j) ∨ (k = j ∧ l = i) then value else c.entry k l := by
  -- the second write goes to the mirrored cell of the table the first one left
  obtain ⟨half, hhalf⟩ := Table.exists_write (h.cells ▸ Table.offset_lt hi hj) value
  have hcells : half.size = c.size * c.size := (Table.size_write hhalf).trans h.cells
  obtain ⟨cells, hwrite⟩ := Table.exists_write (hcells ▸ Table.offset_lt hj hi) value
  have hfits : Fits { c with cells := cells } :=
    ⟨(Table.size_write hwrite).trans hcells, h.words⟩
  refine ⟨{ c with cells := cells }, ?_, rfl, hfits, ?_⟩
  · unfold set
    rw [if_neg hij]
    refine bind_eq_ok_iff.mpr ⟨_, h.cell_eq_ok hi hj, bind_eq_ok_iff.mpr ⟨half, hhalf, ?_⟩⟩
    exact bind_eq_ok_iff.mpr ⟨_, h.cell_eq_ok hj hi, bind_eq_ok_iff.mpr ⟨cells, hwrite, rfl⟩⟩
  · intro k l hk hl
    have hcell : k * c.size + l < c.cells.size := h.cells ▸ Table.offset_lt hk hl
    have hvalue : entry { c with cells := cells } k l =
        if k * c.size + l = j * c.size + i then value
        else if k * c.size + l = i * c.size + j then value else c.entry k l := by
      unfold entry
      rw [Table.getD_write hwrite (Table.size_write hhalf ▸ hcell), Table.getD_write hhalf hcell]
    -- two offsets agree when rows and columns do
    rw [hvalue]
    simp only [Table.offset_eq_iff hl hi, Table.offset_eq_iff hl hj]
    by_cases hmirror : k = j ∧ l = i
    · rw [if_pos hmirror, if_pos (Or.inr hmirror)]
    · simp only [hmirror, if_false, or_false]

end Couplings

end ThermalSearch
