import ThermalSearch.Model.Potts
import ThermalSearch.Proofs.Iteration
import ThermalSearch.Proofs.Model.Couplings
import ThermalSearch.Proofs.Scalar.Exact
import ThermalSearch.Proofs.Sums

/-!
# The energy of an assignment of Potts states

The energy is taken off zero row by row: the field on a spin in its state, then its couplings with
the later spins in the same state. It exists for every assignment to states that there are
(`energyOf_eq_ok`), whatever the arithmetic. A search never leaves these: any number stands for a
state that there is (`decodeOne_lt`), and the energy of a search state is, operation by operation,
the energy of the assignment it stands for (`energy_of_length`). In exact arithmetic it is the
Hamiltonian of the model (`evaluate_eq_ok_iff_hamiltonian`).
-/

namespace ThermalSearch.Potts

variable {α : Type}

/-- There is a coupling for each pair of spins and a field for each spin in each state. -/
structure Fits (m : Potts α) : Prop where
  couplings : m.couplings.Fits
  field : m.field.size = m.size * m.states
  words : m.size * m.states < 2 ^ 64

/-- Every spin of the model is given a state that there is; more spins than it has do no harm. -/
structure Covers (m : Potts α) (spins : List Nat) : Prop where
  length : m.size ≤ spins.length
  states : ∀ s ∈ spins, s < m.states

variable {m : Potts α} {spins : List Nat} {i j s : Nat}

theorem requireStates_eq_ok_iff : m.requireStates i spins = .ok () ↔ ∀ s ∈ spins, s < m.states := by
  induction spins generalizing i with
  | nil => simp [requireStates]
  | cons s spins ih =>
    rw [requireStates, check_eq_ok_iff, refuseIf_eq_ok_iff, decide_eq_false_iff_not, Nat.not_le, ih,
      List.forall_mem_cons]

/-! ## Reading -/

theorem Covers.getD_lt (h : m.Covers spins) (hi : i < m.size) : spins.getD i 0 < m.states := by
  have hi' : i < spins.length := Nat.lt_of_lt_of_le hi h.length
  rw [List.getD_eq_getElem?_getD, List.getElem?_eq_getElem hi']
  exact h.states _ (List.getElem_mem hi')

theorem fieldCell_eq_ok_iff {cell : Nat} :
    m.fieldCell i s = .ok cell ↔ i * m.states + s < 2 ^ 64 ∧ cell = i * m.states + s :=
  Word.mul_add_eq_ok_iff

theorem Fits.fieldCell_eq_ok (h : m.Fits) (hi : i < m.size) (hs : s < m.states) :
    m.fieldCell i s = .ok (i * m.states + s) :=
  fieldCell_eq_ok_iff.mpr ⟨Nat.lt_trans (Table.offset_lt hi hs) h.words, rfl⟩

variable [Scalar α]

/-- The field on spin `i` in state `s`. -/
def fieldOf (m : Potts α) (i s : Nat) : α := m.field.getD (i * m.states + s) 0.0

/-- The coupling of spins `i` and `j`. -/
def couplingOf (m : Potts α) (i j : Nat) : α := m.couplings.entry i j

theorem Fits.fieldAt_eq_ok (h : m.Fits) (hi : i < m.size) (hs : s < m.states) :
    m.fieldAt i s = .ok (m.fieldOf i s) :=
  bind_eq_ok_iff.mpr ⟨_, h.fieldCell_eq_ok hi hs,
    Table.read_eq_ok (h.field ▸ Table.offset_lt hi hs) 0.0⟩

theorem Fits.coupling_eq_ok (h : m.Fits) (hi : i < m.size) (hj : j < m.size) :
    m.coupling i j = .ok (m.couplingOf i j) :=
  h.couplings.get_eq_ok hi hj

/-! ## Building -/

/-- A model without couplings and fields has room for them, and spins in at least one state. -/
theorem of_zero_eq_ok {size states : Nat} (h : zero size states = .ok m) :
    m.size = size ∧ m.states = states ∧ m.Fits ∧ 0 < m.states := by
  unfold zero at h
  rw [check_eq_ok_iff, liftRejection_eq_ok_iff, refuseIf_eq_ok_iff, beq_eq_false_iff_ne] at h
  obtain ⟨hstates, h⟩ := h
  obtain ⟨c, hc, h⟩ := bind_eq_ok_iff.mp h
  obtain ⟨cells, hcells, h⟩ := bind_eq_ok_iff.mp h
  obtain ⟨field, hfield, h⟩ := bind_eq_ok_iff.mp h
  obtain ⟨⟨⟩, -, hfill⟩ := bind_eq_ok_iff.mp (liftFault_eq_ok_iff.mp hfield)
  cases h
  cases hfill
  obtain ⟨hsize, hfits⟩ := Couplings.of_fill_eq_ok (liftFault_eq_ok_iff.mp hc)
  obtain ⟨hwords, rfl⟩ := Word.mul_eq_ok_iff.mp (liftFault_eq_ok_iff.mp hcells)
  rw [← hsize] at hwords
  refine ⟨hsize, rfl, ⟨hfits, ?_, hwords⟩, Nat.pos_of_ne_zero hstates⟩
  rw [← hsize]
  exact Array.size_replicate

/-- What can be made of a model without couplings and fields by writing to it. -/
inductive Reachable : Potts α → Prop where
  | zero {size states : Nat} {m : Potts α} (h : zero size states = .ok m) : Reachable m
  | setCoupling {m m' : Potts α} {i j : Nat} {value : α} (hm : Reachable m)
    (h : m.setCoupling i j value = .ok m') : Reachable m'
  | setField {m m' : Potts α} {i s : Nat} {value : α} (hm : Reachable m)
    (h : m.setField i s value = .ok m') : Reachable m'

/-- However a model was made, it has room for its couplings and fields, and its spins have a state
to be in. -/
theorem Reachable.fits (h : m.Reachable) : m.Fits ∧ 0 < m.states := by
  induction h with
  | zero h => exact (of_zero_eq_ok h).2.2
  | @setCoupling m _ _ _ _ _ h ih =>
    -- the number of spins is that of the couplings, so it has to be seen to stay
    obtain ⟨c, hc, h⟩ := bind_eq_ok_iff.mp h
    cases h
    obtain ⟨hfits, hstates⟩ := ih
    obtain ⟨hsize, hcouplings⟩ := hfits.couplings.of_set_eq_ok hc
    have hcells : m.field.size = c.size * m.states := by
      rw [hsize]
      exact hfits.field
    have hwords : c.size * m.states < 2 ^ 64 := by
      rw [hsize]
      exact hfits.words
    exact ⟨⟨hcouplings, hcells, hwords⟩, hstates⟩
  | setField _ h ih =>
    obtain ⟨cell, -, h⟩ := bind_eq_ok_iff.mp h
    obtain ⟨field, hwrite, h⟩ := bind_eq_ok_iff.mp h
    cases h
    obtain ⟨hfits, hstates⟩ := ih
    exact ⟨⟨hfits.couplings, (Table.size_write hwrite).trans hfits.field, hfits.words⟩, hstates⟩

/-! ## Writing -/

/-- Setting a field changes that field and nothing else. -/
theorem Fits.of_setField_eq_ok {m' : Potts α} {value : α} (h : m.Fits) (hi : i < m.size)
    (hs : s < m.states) (hset : m.setField i s value = .ok m') :
    m'.couplings = m.couplings ∧ m'.states = m.states ∧ m'.Fits ∧
      ∀ k t, k < m.size → t < m.states →
        m'.fieldOf k t = if k = i ∧ t = s then value else m.fieldOf k t := by
  obtain ⟨cell, hcell, hset⟩ := bind_eq_ok_iff.mp hset
  obtain ⟨field, hwrite, hset⟩ := bind_eq_ok_iff.mp hset
  cases hset
  cases (h.fieldCell_eq_ok hi hs).symm.trans hcell
  refine ⟨rfl, rfl, ⟨h.couplings, (Table.size_write hwrite).trans h.field, h.words⟩, ?_⟩
  intro k t hk ht
  unfold fieldOf
  rw [Table.getD_write hwrite (h.field ▸ Table.offset_lt hk ht)]
  simp only [Table.offset_eq_iff ht hs]

/-- Coupling two spins changes their coupling, seen from either side, and nothing else. -/
theorem Fits.of_setCoupling_eq_ok {m' : Potts α} {value : α} (h : m.Fits) (hi : i < m.size)
    (hj : j < m.size) (hij : i ≠ j) (hset : m.setCoupling i j value = .ok m') :
    m'.size = m.size ∧ m'.states = m.states ∧ m'.Fits ∧ m'.field = m.field ∧
      ∀ k l, k < m.size → l < m.size → m'.couplingOf k l =
        if (k = i ∧ l = j) ∨ (k = j ∧ l = i) then value else m.couplingOf k l := by
  obtain ⟨c, hc, hset⟩ := bind_eq_ok_iff.mp hset
  cases hset
  obtain ⟨c', hc', hsize, hfits, hentry⟩ := h.couplings.set_eq_ok hi hj hij value
  cases hc.symm.trans hc'
  refine ⟨hsize, rfl, ⟨hfits, h.field.trans ?_, ?_⟩, rfl, hentry⟩
  · exact congrArg (· * m.states) hsize.symm
  · exact (congrArg (· * m.states) hsize).trans_lt h.words

/-! ## Assignments -/

/-- What is left of an energy without the row of spin `i`. -/
def lessRow (m : Potts α) (spins : List Nat) (energy : α) (i : Nat) : α :=
  (following i m.size).foldl
    (fun energy j =>
      if spins.getD j 0 = spins.getD i 0 then energy - m.couplingOf i j else energy)
    (energy - m.fieldOf i (spins.getD i 0))

theorem subtractRow_eq_ok (hfits : m.Fits) (h : m.Covers spins) (hi : i < m.size)
    (energy : α) : m.subtractRow spins.toArray energy i = .ok (m.lessRow spins energy i) := by
  have hread : ∀ {j}, j < m.size → Table.read spins.toArray j = .ok (spins.getD j 0) :=
    fun hj => Table.read_toArray (Nat.lt_of_lt_of_le hj h.length) 0
  unfold subtractRow
  refine bind_eq_ok_iff.mpr ⟨_, hread hi, ?_⟩
  refine bind_eq_ok_iff.mpr ⟨_, hfits.fieldAt_eq_ok hi (h.getD_lt hi), ?_⟩
  apply foldlM_eq_ok
  intro energy j hj
  have hj' : j < m.size := (mem_following.mp hj).2
  refine bind_eq_ok_iff.mpr ⟨_, hread hj', ?_⟩
  by_cases hsame : spins.getD j 0 = spins.getD i 0
  · rw [if_pos hsame, if_pos hsame]
    exact bind_eq_ok_iff.mpr ⟨_, hfits.coupling_eq_ok hi hj', rfl⟩
  · rw [if_neg hsame, if_neg hsame]
    rfl

theorem energyOf_eq_ok (hfits : m.Fits) (h : m.Covers spins) :
    m.energyOf spins = .ok ((List.range m.size).foldl (m.lessRow spins) 0.0) := by
  apply foldlM_eq_ok
  intro energy i hi
  exact subtractRow_eq_ok hfits h (List.mem_range.mp hi) energy

theorem evaluate_eq_ok_iff {energy : α} :
    m.evaluate spins = .ok energy ↔
      spins.length = m.size ∧ (∀ s ∈ spins, s < m.states) ∧ m.energyOf spins = .ok energy := by
  unfold evaluate
  rw [check_eq_ok_iff, check_eq_ok_iff, liftRejection_eq_ok_iff, liftRejection_eq_ok_iff,
    requireLength_eq_ok_iff, requireStates_eq_ok_iff, liftFault_eq_ok_iff, eq_comm]

/-! ## Search states -/

theorem decodeOne_lt (hstates : 0 < m.states) (x : α) : m.decodeOne x < m.states := by
  unfold decodeOne
  omega

@[simp] theorem length_decode (m : Potts α) (state : State α) :
    (m.decode state).length = state.length := List.length_map _

theorem decode_lt (hstates : 0 < m.states) (state : State α) :
    ∀ s ∈ m.decode state, s < m.states := by
  intro s hs
  obtain ⟨x, -, rfl⟩ := List.mem_map.mp hs
  exact decodeOne_lt hstates x

/-- The search sees the energy of the assignment that a state stands for. -/
theorem energy_of_length {state : State α} (hlength : state.length = m.size) :
    m.energy state = m.energyOf (m.decode state) :=
  if_neg (Nat.not_lt.mpr (Nat.le_of_eq hlength.symm))

/-- The search sees an energy whatever the state is, even of the wrong length. -/
theorem exists_energy (hfits : m.Fits) (hstates : 0 < m.states) (state : State α) :
    ∃ energy, m.energy state = .ok energy := by
  by_cases hshort : state.length < m.size
  · exact ⟨_, if_pos hshort⟩
  · have hcovers : m.Covers (m.decode state) :=
      ⟨(length_decode m state).symm ▸ Nat.not_lt.mp hshort, decode_lt hstates state⟩
    exact ⟨_, (if_neg hshort).trans (energyOf_eq_ok hfits hcovers)⟩

/-! ## Exact arithmetic -/

section

open Finset

variable {K : Type} [Field K] [LinearOrder K] [FloorSemiring K] {f : Uninterpreted K}

/-- Minus the fields on the spins in their states, and minus the couplings of spins in the same
state, each pair once. -/
def hamiltonian (m : Potts (Exact f)) (spins : List Nat) : K :=
  -∑ i ∈ range m.size, ((m.fieldOf i (spins.getD i 0)).value +
    ∑ j ∈ Ico (i + 1) m.size,
      if spins.getD j 0 = spins.getD i 0 then (m.couplingOf i j).value else 0)

theorem value_lessRow (m : Potts (Exact f)) (energy : Exact f) :
    (m.lessRow spins energy i).value = energy.value +
      -((m.fieldOf i (spins.getD i 0)).value + ∑ j ∈ Ico (i + 1) m.size,
        if spins.getD j 0 = spins.getD i 0 then (m.couplingOf i j).value else 0) := by
  have hpair : ∀ (energy : Exact f), ∀ j ∈ following i m.size,
      (if spins.getD j 0 = spins.getD i 0 then energy - m.couplingOf i j else energy).value =
        energy.value +
          -(if spins.getD j 0 = spins.getD i 0 then (m.couplingOf i j).value else 0) := by
    intro energy j _
    split
    · rw [Exact.value_sub, sub_eq_add_neg]
    · rw [neg_zero, add_zero]
  unfold lessRow
  rw [Exact.value_foldl hpair, sum_map_following, sum_neg_distrib, Exact.value_sub]
  ring

/-- Without rounding, the energy of an assignment is the Hamiltonian of the model. -/
theorem evaluate_eq_ok_iff_hamiltonian {m : Potts (Exact f)} {energy : Exact f} (hfits : m.Fits) :
    m.evaluate spins = .ok energy ↔
      (spins.length = m.size ∧ ∀ s ∈ spins, s < m.states) ∧
        energy.value = m.hamiltonian spins := by
  have hrow : ∀ (energy : Exact f), ∀ i ∈ List.range m.size, (m.lessRow spins energy i).value =
      energy.value + -((m.fieldOf i (spins.getD i 0)).value + ∑ j ∈ Ico (i + 1) m.size,
        if spins.getD j 0 = spins.getD i 0 then (m.couplingOf i j).value else 0) :=
    fun energy i _ => m.value_lessRow energy
  rw [evaluate_eq_ok_iff, ← and_assoc]
  refine and_congr_right fun h => ?_
  rw [energyOf_eq_ok hfits ⟨h.1.ge, h.2⟩, Except.ok.injEq, eq_comm, Exact.ext_iff,
    Exact.value_foldl hrow, Exact.value_zero, zero_add, sum_map_range, sum_neg_distrib, hamiltonian]

end

end ThermalSearch.Potts
