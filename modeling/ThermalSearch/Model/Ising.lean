import ThermalSearch.Model.Couplings
import ThermalSearch.Model.Qubo
import ThermalSearch.Proposal

namespace ThermalSearch

/-!
# Ising models

Spins are numbers, `1` up and `-1` down, under a field and coupled in pairs. Setting a bit turns
its spin up, so a QUBO is an Ising model of the same size, up to a constant that does not depend
on the spins.
-/

structure Ising (α : Type) where
  couplings : Couplings α
  field : Array α

namespace Ising

variable {α : Type}

def size (m : Ising α) : Nat := m.couplings.size

def coupling (m : Ising α) (i j : Nat) : Except Fault α := m.couplings.get i j

def setCoupling (m : Ising α) (i j : Nat) (value : α) : Except Fault (Ising α) := do
  let couplings ← m.couplings.set i j value
  return { m with couplings }

def fieldAt (m : Ising α) (i : Nat) : Except Fault α := Table.read m.field i

def setField (m : Ising α) (i : Nat) (value : α) : Except Fault (Ising α) := do
  let field ← Table.write m.field i value
  return { m with field }

variable [Scalar α]

/-- A model of `size` spins without couplings or field. -/
def zero (size : Nat) : Except Fault (Ising α) := do
  let couplings ← Couplings.fill size (0.0 : α)
  let field ← Table.fill size (0.0 : α)
  return { couplings, field }

/-- Takes the field on spin `i` and its couplings with the spins after it off the energy. -/
def subtractRow (m : Ising α) (spins : Array α) (energy : α) (i : Nat) : Except Fault α := do
  let s ← Table.read spins i
  let energy := energy - (← m.fieldAt i) * s
  (following i spins.size).foldlM (fun energy j => do
    return energy - (← m.coupling i j) * s * (← Table.read spins j)) energy

/-- The energy of a state. Of a longer state the first spins count; of a shorter one, only the
terms whose spins it has. -/
def energy (m : Ising α) : Energy α := fun state =>
  let spins := (state.take m.size).toArray
  (List.range spins.size).foldlM (m.subtractRow spins) 0.0

/-- The energy of a state of the right length. -/
def evaluate (m : Ising α) (spins : State α) : Except (Failure α) α := do
  (requireLength m.size spins.length : Except (Rejection α) Unit)
  m.energy spins

end Ising

variable {α : Type} [Scalar α]

/-- The field on spin `i`: half of the bit's own coefficient and a quarter of every coefficient
it shares with another bit, taken negative. -/
def Qubo.isingField (q : Qubo α) (i : Nat) : Except Fault α := do
  let own ← q.get i i
  (List.range q.size).foldlM (fun h j => do
    if j ≠ i then return h - (← q.get i j) / 4.0 else return h) (-own / 2.0)

/-- The spin model of a QUBO. -/
def Qubo.toIsing (q : Qubo α) : Except Fault (Ising α) := do
  let model ← Ising.zero q.size
  (List.range q.size).foldlM (fun model i => do
    let model ← model.setField i (← q.isingField i)
    (following i q.size).foldlM (fun model j => do
      model.setCoupling i j (-(← q.get i j) / 4.0)) model) model

/-- A spin that is not below zero is up. -/
def bitsOfSpins (spins : State α) : Bits := spins.map fun s => if s ≥ 0.0 then 1 else 0

def spinsOfBits (x : Bits) : State α := x.map fun bit => if isSet bit then 1.0 else -(1.0)

end ThermalSearch
