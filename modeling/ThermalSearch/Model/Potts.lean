import ThermalSearch.Model.Couplings
import ThermalSearch.Model.Qubo
import ThermalSearch.Proposal

namespace ThermalSearch

/-!
# Potts models

Every spin is in one of `states` states. A pair of spins is coupled while both are in the same
state, and each state of each spin has a field of its own. A search carries the state numbers as
ordinary numbers; any number at all stands for the state nearest to it.
-/

structure Potts (α : Type) where
  states : Nat
  couplings : Couplings α
  /-- The fields of each spin, one for every state, spin after spin. -/
  field : Array α

namespace Potts

variable {α : Type}

def size (m : Potts α) : Nat := m.couplings.size

def coupling (m : Potts α) (i j : Nat) : Except Fault α := m.couplings.get i j

def setCoupling (m : Potts α) (i j : Nat) (value : α) : Except Fault (Potts α) := do
  let couplings ← m.couplings.set i j value
  return { m with couplings }

def fieldCell (m : Potts α) (i state : Nat) : Except Fault Nat := do
  Word.add (← Word.mul i m.states) state

def fieldAt (m : Potts α) (i state : Nat) : Except Fault α := do
  Table.read m.field (← m.fieldCell i state)

def setField (m : Potts α) (i state : Nat) (value : α) : Except Fault (Potts α) := do
  let field ← Table.write m.field (← m.fieldCell i state) value
  return { m with field }

variable [Scalar α]

/-- A model of `size` spins with `states` states each, without couplings or fields. -/
def zero (size states : Nat) : Except (Failure α) (Potts α) := do
  (refuseIf (states == 0) .noPottsStates : Except (Rejection α) Unit)
  let couplings ← Couplings.fill size (0.0 : α)
  let field ← Table.fill (← Word.mul size states) (0.0 : α)
  return { states, couplings, field }

/-- Takes the field on spin `i` and its couplings with the later spins in its state off the
energy. -/
def subtractRow (m : Potts α) (spins : Array Nat) (energy : α) (i : Nat) : Except Fault α := do
  let s ← Table.read spins i
  let energy := energy - (← m.fieldAt i s)
  (following i m.size).foldlM (fun energy j => do
    if (← Table.read spins j) = s then return energy - (← m.coupling i j)
    else return energy) energy

/-- The energy of an assignment of states. -/
def energyOf (m : Potts α) (spins : List Nat) : Except Fault α :=
  let spins := spins.toArray
  (List.range m.size).foldlM (m.subtractRow spins) 0.0

omit [Scalar α] in
/-- Every spin, counted from `i`, has to be in a state that there is. -/
def requireStates (m : Potts α) (i : Nat) : List Nat → Except (Rejection α) Unit
  | s :: spins => do
    refuseIf (decide (m.states ≤ s)) (.noSuchState i s m.states)
    m.requireStates (i + 1) spins
  | [] => .ok ()

/-- The energy of an assignment of the right length to states that there are. -/
def evaluate (m : Potts α) (spins : List Nat) : Except (Failure α) α := do
  (requireLength m.size spins.length : Except (Rejection α) Unit)
  m.requireStates 0 spins
  m.energyOf spins

/-- The state a number stands for: the nearest one, and the first for an undefined number. -/
def decodeOne (m : Potts α) (x : α) : Nat := min (Scalar.nearest x) (m.states - 1)

/-- The states the numbers stand for. -/
def decode (m : Potts α) (state : State α) : List Nat := state.map m.decodeOne

/-- The energy of a search state. A state with too few spins is worse than any other; of one with
too many, the first ones count. -/
def energy (m : Potts α) : Energy α := fun state =>
  if state.length < m.size then .ok Scalar.infinity else m.energyOf (m.decode state)

end Potts

end ThermalSearch
