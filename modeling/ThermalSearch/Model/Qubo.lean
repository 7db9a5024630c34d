import ThermalSearch.Table
import ThermalSearch.Word

namespace ThermalSearch

/-!
# Quadratic binary optimisation

A QUBO over `n` bits has a coefficient for every bit and for every pair of bits; its energy is
the sum of those whose bits are all set. The coefficients are kept as the upper triangle of a
symmetric matrix, row after row, so `(i, j)` and `(j, i)` name one entry.
-/

/-- The numbers after `i` and below `n`, in order. -/
def following (i n : Nat) : List Nat := List.range' (i + 1) (n - (i + 1))

theorem mem_following {i n j : Nat} : j ∈ following i n ↔ i < j ∧ j < n := by
  unfold following
  rw [List.mem_range'_1]
  constructor
  · intro h
    omega
  · intro h
    omega

/-- A bit vector. Any number but zero stands for a set bit. -/
abbrev Bits := List UInt8

def isSet (bit : UInt8) : Bool := bit != 0

structure Qubo (α : Type) where
  size : Nat
  entries : Array α

namespace Qubo

variable {α : Type}

/-- The offset of entry `(i, j)`: the rows above the smaller index come first. -/
def cell (size i j : Nat) : Except Fault Nat :=
  if i < size ∧ j < size then do
    let low := min i j
    let rows ← Word.mul 2 size
    let rows ← Word.sub rows low
    let rows ← Word.sub rows 1
    let above ← Word.mul low rows
    Word.add (above / 2) (max i j)
  else .error (.noEntry i j size)

def index (q : Qubo α) (i j : Nat) : Except Fault Nat := cell q.size i j

def get (q : Qubo α) (i j : Nat) : Except Fault α := do
  Table.read q.entries (← q.index i j)

def set (q : Qubo α) (i j : Nat) (value : α) : Except Fault (Qubo α) := do
  let entries ← Table.write q.entries (← q.index i j) value
  return { q with entries }

variable [Scalar α]

/-- The QUBO over `size` bits without any coefficient. -/
def zero (size : Nat) : Except Fault (Qubo α) := do
  let cells ← Word.mul size (← Word.add size 1)
  let entries ← Table.fill (cells / 2) (0.0 : α)
  return { size, entries }

def add (q : Qubo α) (i j : Nat) (value : α) : Except Fault (Qubo α) := do
  let cell ← q.index i j
  let old ← Table.read q.entries cell
  let entries ← Table.write q.entries cell (old + value)
  return { q with entries }

/-- Whether every coefficient is finite. -/
def isFinite (q : Qubo α) : Bool := q.entries.all Scalar.isFinite

/-- Adds the coefficients of bit `i`, which is set, with itself and with the set bits after it. -/
def addRow (q : Qubo α) (x : Array UInt8) (energy : α) (i : Nat) : Except Fault α := do
  let row ← q.index i i
  let energy := energy + (← Table.read q.entries row)
  (following i x.size).foldlM (fun energy j => do
    if isSet (← Table.read x j) then
      return energy + (← Table.read q.entries (row + (j - i)))
    else return energy) energy

/-- The energy of the first bits of `x`, as many as the QUBO has. -/
def energy (q : Qubo α) (x : Bits) : Except Fault α := do
  let x := (x.take q.size).toArray
  (List.range x.size).foldlM (fun energy i => do
    if isSet (← Table.read x i) then q.addRow x energy i else return energy) 0.0

/-- The energy of a bit vector of the right length. -/
def evaluate (q : Qubo α) (x : Bits) : Except (Failure α) α := do
  (requireLength q.size x.length : Except (Rejection α) Unit)
  q.energy x

/-- What the energy exceeds that of the spin model by: half of every diagonal coefficient and a
quarter of every other one. -/
def isingOffset (q : Qubo α) : Except Fault α :=
  (List.range q.size).foldlM (fun offset i => do
    let row ← q.index i i
    let offset := offset + (← Table.read q.entries row) / 2.0
    let rest ← (following i q.size).mapM fun j => Table.read q.entries (row + (j - i))
    return offset + Scalar.sum rest / 4.0) 0.0

end Qubo

end ThermalSearch
