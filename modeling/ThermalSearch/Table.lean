import ThermalSearch.Failure

namespace ThermalSearch.Table

/-!
# Flat tables of numbers

Reading and writing by offset, with a fault where there is no cell.
-/

variable {α : Type}

/-- Whether there can be a table of `cells` cells of `words` 64-bit words each: it has to fit into
half of the 64-bit address space. -/
def reserve (cells words : Nat) : Except Fault Unit :=
  if cells * words * 8 < UInt64.size / 2 then .ok () else .error .tooLarge

/-- How many words a list takes besides its items: where they are, how many there are and how many
there is room for. -/
def header : Nat := 3

/-- A table of `cells` copies of `value`. -/
def fill (cells : Nat) (value : α) : Except Fault (Array α) := do
  reserve cells 1
  return Array.replicate cells value

def read (table : Array α) (cell : Nat) : Except Fault α :=
  if h : cell < table.size then .ok table[cell] else .error .outOfBounds

def write (table : Array α) (cell : Nat) (value : α) : Except Fault (Array α) :=
  if h : cell < table.size then .ok (table.set cell value h) else .error .outOfBounds

theorem reserve_eq_ok_iff {cells words : Nat} :
    reserve cells words = .ok () ↔ cells * words * 8 < UInt64.size / 2 := by
  unfold reserve
  constructor
  · intro h
    split at h
    next hfits => exact hfits
    next => cases h
  · intro hfits
    rw [if_pos hfits]

/-! ## Rows -/

/-- Row after row, there is a cell for each row and column. -/
theorem offset_lt {rows width row column : Nat} (hrow : row < rows) (hcolumn : column < width) :
    row * width + column < rows * width := by
  have hnext : (row + 1) * width ≤ rows * width := Nat.mul_le_mul_right width hrow
  rw [Nat.succ_mul] at hnext
  omega

/-- No two cells of such a table share an offset. -/
theorem offset_injective {width row column row' column' : Nat} (hcolumn : column < width)
    (hcolumn' : column' < width) (h : row * width + column = row' * width + column') :
    row = row' ∧ column = column' := by
  have hwidth : 0 < width := Nat.zero_lt_of_lt hcolumn
  have hsame : column = column' := by
    have hmod := congrArg (· % width) h
    simpa [Nat.mul_add_mod_self_right, Nat.mod_eq_of_lt, hcolumn, hcolumn'] using hmod
  rw [hsame] at h
  exact ⟨Nat.eq_of_mul_eq_mul_right hwidth (Nat.add_right_cancel h), hsame⟩

theorem offset_eq_iff {width row column row' column' : Nat} (hcolumn : column < width)
    (hcolumn' : column' < width) :
    row * width + column = row' * width + column' ↔ row = row' ∧ column = column' :=
  ⟨offset_injective hcolumn hcolumn', fun hsame => by rw [hsame.1, hsame.2]⟩

/-! ## Reading and writing -/

theorem read_eq_ok_iff {table : Array α} {cell : Nat} {value : α} :
    read table cell = .ok value ↔ table[cell]? = some value := by
  unfold read
  split
  next hcell => rw [Array.getElem?_eq_getElem hcell, Except.ok.injEq, Option.some.injEq]
  next hcell => simp [Array.getElem?_eq_none (Nat.not_lt.mp hcell)]

/-- Within the table the default of a look-up plays no part. -/
theorem read_eq_ok {table : Array α} {cell : Nat} (h : cell < table.size) (default : α) :
    read table cell = .ok (table.getD cell default) := by
  rw [read_eq_ok_iff, Array.getD_eq_getD_getElem?, Array.getElem?_eq_getElem h]
  rfl

theorem read_toArray {xs : List α} {cell : Nat} (h : cell < xs.length) (default : α) :
    read xs.toArray cell = .ok (xs.getD cell default) := by
  have hcell : cell < xs.toArray.size := List.size_toArray ▸ h
  rw [read_eq_ok hcell default, Array.getD_eq_getD_getElem?, List.getElem?_toArray,
    List.getD_eq_getElem?_getD]

theorem exists_write {table : Array α} {cell : Nat} (h : cell < table.size) (value : α) :
    ∃ table', write table cell value = .ok table' :=
  ⟨_, dif_pos h⟩

theorem lt_of_write {table table' : Array α} {cell : Nat} {value : α}
    (h : write table cell value = .ok table') : cell < table.size := by
  unfold write at h
  split at h
  next hcell => exact hcell
  next => cases h

theorem size_write {table table' : Array α} {cell : Nat} {value : α}
    (h : write table cell value = .ok table') : table'.size = table.size := by
  unfold write at h
  split at h
  · cases h
    exact Array.size_set _
  · cases h

/-- A write that returns has changed its own cell only. -/
theorem read_write {table table' : Array α} {cell : Nat} {value : α}
    (h : write table cell value = .ok table') (other : Nat) :
    read table' other = if other = cell then .ok value else read table other := by
  unfold write at h
  split at h
  · cases h
    unfold read
    by_cases ho : other = cell
    · subst ho; simp [*]
    · simp only [Array.size_set, ho, if_false]
      split
      · rw [Array.getElem_set_ne]; exact fun e => ho e.symm
      · rfl
  · cases h

theorem getD_write {table table' : Array α} {cell other : Nat} {value : α}
    (h : write table cell value = .ok table') (hother : other < table.size) (default : α) :
    table'.getD other default = if other = cell then value else table.getD other default := by
  have hread := read_write h other
  rw [read_eq_ok (size_write h ▸ hother) default, read_eq_ok hother default] at hread
  by_cases hsame : other = cell
  · rw [if_pos hsame] at hread ⊢
    exact Except.ok.inj hread
  · rw [if_neg hsame] at hread ⊢
    exact Except.ok.inj hread

end ThermalSearch.Table
