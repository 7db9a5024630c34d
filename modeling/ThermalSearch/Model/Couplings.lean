import ThermalSearch.Table
import ThermalSearch.Word

namespace ThermalSearch

/-!
# Couplings of pairs of spins

A square table, row after row, that is written in both places of a pair at once. Offsets are
computed from indices that are not checked one by one, so a column past the end of a row names a
cell of a later row; only an offset past the end of the table, or beyond 64 bits, is a fault.
-/

/-- The couplings of `size` spins. -/
structure Couplings (α : Type) where
  size : Nat
  cells : Array α

namespace Couplings

variable {α : Type}

/-- A table of `size * size` copies of `value`. -/
def fill (size : Nat) (value : α) : Except Fault (Couplings α) := do
  let cells ← Table.fill (← Word.mul size size) value
  return { size, cells }

def cell (c : Couplings α) (i j : Nat) : Except Fault Nat := do
  Word.add (← Word.mul i c.size) j

def get (c : Couplings α) (i j : Nat) : Except Fault α := do
  Table.read c.cells (← c.cell i j)

/-- Couples two spins. No spin is coupled to itself: such a request is passed over, whatever its
index. -/
def set (c : Couplings α) (i j : Nat) (value : α) : Except Fault (Couplings α) :=
  if i = j then .ok c
  else do
    let cells ← Table.write c.cells (← c.cell i j) value
    let cells ← Table.write cells (← c.cell j i) value
    return { c with cells }

end Couplings

end ThermalSearch
