import ThermalSearch.Model.Ising
import ThermalSearch.Proofs.Iteration
import ThermalSearch.Proofs.Model.Couplings
import ThermalSearch.Proofs.Moves
import ThermalSearch.Proofs.Sums

/-!
# The energy of a spin state

The energy is taken off zero row by row: the field on a spin, then its couplings with the spins
after it. `energy_eq_ok` says which numbers are subtracted, in which order, whatever the arithmetic,
and in exact arithmetic (`value_energy`) they make the Hamiltonian of the model. A model whose
tables have a cell for everything that is read has an energy for every state, of whatever length
(`exists_energy`).
-/

namespace ThermalSearch

namespace Ising

section

variable {α : Type}

/-- There is a coupling for each pair of spins and a field on each spin. -/
structure Fits (m : Ising α) : Prop where
  couplings : m.couplings.Fits
  field : m.field.size = m.size

variable [Scalar α]

/-! ## Building -/

theorem of_zero_eq_ok {n : Nat} {m : Ising α} (h : zero n = .ok m) : m.size = n ∧ m.Fits := by
  obtain ⟨c, hc, h⟩ := bind_eq_ok_iff.mp h
  obtain ⟨field, hfield, h⟩ := bind_eq_ok_iff.mp h
  obtain ⟨⟨⟩, -, hfill⟩ := bind_eq_ok_iff.mp hfield
  cases h
  cases hfill
  obtain ⟨hsize, hfits⟩ := Couplings.of_fill_eq_ok hc
  exact ⟨hsize, hfits, Array.size_replicate.trans hsize.symm⟩

/-- A model is made whenever there can be a table of its couplings. -/
theorem exists_zero_iff {n : Nat} :
    (∃ m : Ising α, zero n = .ok m) ↔ n * n * 8 < 2 ^ 63 := by
  constructor
  · rintro ⟨m, h⟩
    obtain ⟨c, hc, -⟩ := bind_eq_ok_iff.mp h
    exact Couplings.exists_fill_iff.mp ⟨c, hc⟩
  · intro hroom
    have hcouplings : ∃ c, Couplings.fill n (0.0 : α) = .ok c :=
      Couplings.exists_fill_iff.mpr hroom
    obtain ⟨c, hc⟩ := hcouplings
    have hfield : Table.fill n (0.0 : α) = .ok (Array.replicate n 0.0) := by
      -- the fields need no more room than the couplings
      have hle : n ≤ n * n := Nat.le_mul_self n
      have hbytes : n * 1 * 8 < 2 ^ 63 := by omega
      exact bind_eq_ok_iff.mpr ⟨(), Table.reserve_eq_ok_iff.mpr hbytes, rfl⟩
    refine ⟨{ couplings := c, field := Array.replicate n 0.0 }, ?_⟩
    exact bind_eq_ok_iff.mpr ⟨c, hc, bind_eq_ok_iff.mpr ⟨_, hfield, rfl⟩⟩

/-! ## Reading -/

/-- The field on spin `i`. -/
def fieldOf (m : Ising α) (i : Nat) : α := m.field.getD i 0.0

/-- The coupling of spins `i` and `j`. -/
def couplingOf (m : Ising α) (i j : Nat) : α := m.couplings.entry i j

variable {m : Ising α} {s : State α} {i j : Nat}

theorem Fits.fieldAt_eq_ok (h : m.Fits) (hi : i < m.size) : m.fieldAt i = .ok (m.fieldOf i) :=
  Table.read_eq_ok (h.field ▸ hi) 0.0

theorem Fits.coupling_eq_ok (h : m.Fits) (hi : i < m.size) (hj : j < m.size) :
    m.coupling i j = .ok (m.couplingOf i j) :=
  h.couplings.get_eq_ok hi hj

/-! ## Evaluation -/

/-- What is left of an energy without the row of spin `i`. -/
def lessRow (m : Ising α) (s : State α) (energy : α) (i : Nat) : α :=
  (following i s.length).foldl
    (fun energy j => energy - m.couplingOf i j * s.getD i 0.0 * s.getD j 0.0)
    (energy - m.fieldOf i * s.getD i 0.0)

theorem subtractRow_eq_ok (h : m.Fits) (hs : s.length ≤ m.size) (hi : i < s.length) (energy : α) :
    m.subtractRow s.toArray energy i = .ok (m.lessRow s energy i) := by
  have hi' : i < m.size := Nat.lt_of_lt_of_le hi hs
  unfold subtractRow
  refine bind_eq_ok_iff.mpr ⟨_, Table.read_toArray hi 0.0, ?_⟩
  refine bind_eq_ok_iff.mpr ⟨_, h.fieldAt_eq_ok hi', ?_⟩
  rw [List.size_toArray]
  apply foldlM_eq_ok
  intro energy j hj
  have hj' : j < s.length := (mem_following.mp hj).2
  refine bind_eq_ok_iff.mpr ⟨_, h.coupling_eq_ok hi' (Nat.lt_of_lt_of_le hj' hs), ?_⟩
  exact bind_eq_ok_iff.mpr ⟨_, Table.read_toArray hj' 0.0, rfl⟩

/-- The spins that the model has are taken off row by row. -/
theorem energy_eq_ok (h : m.Fits) (s : State α) :
    m.energy s =
      .ok ((List.range (s.take m.size).length).foldl (m.lessRow (s.take m.size)) 0.0) := by
  unfold energy
  dsimp only
  rw [List.size_toArray]
  apply foldlM_eq_ok
  intro energy i hi
  have hlength : (s.take m.size).length ≤ m.size := List.length_take_le m.size s
  exact subtractRow_eq_ok h hlength (List.mem_range.mp hi) energy

theorem exists_energy (h : m.Fits) (s : State α) : ∃ energy, m.energy s = .ok energy :=
  ⟨_, energy_eq_ok h s⟩

theorem evaluate_eq_ok_iff_energy {energy : α} :
    m.evaluate s = .ok energy ↔ s.length = m.size ∧ m.energy s = .ok energy := by
  unfold evaluate
  rw [check_eq_ok_iff, liftRejection_eq_ok_iff, requireLength_eq_ok_iff, liftFault_eq_ok_iff,
    eq_comm]

/-- No spin state of the right length has less energy. -/
def IsMinimiser (m : Ising α) (s : State α) : Prop :=
  ∃ energy, m.evaluate s = .ok energy ∧
    ∀ t other, t.IsSpins → m.evaluate t = .ok other → energy ≤ other

end

/-! ## Exact arithmetic -/

open Finset

variable {K : Type} [Field K] [LinearOrder K] [FloorSemiring K] {f : Uninterpreted K}
  {m : Ising (Exact f)} {s : State (Exact f)}

/-- Spin `i` as an element of the field. -/
def spin (s : State (Exact f)) (i : Nat) : K := (s.getD i 0.0).value

/-- The fields pull each spin their way, the couplings two spins together. -/
def hamiltonian (m : Ising (Exact f)) (s : State (Exact f)) : K :=
  -∑ i ∈ range m.size, ((m.fieldOf i).value * spin s i +
    ∑ j ∈ Ico (i + 1) m.size, (m.couplingOf i j).value * spin s i * spin s j)

theorem value_lessRow (m : Ising (Exact f)) (s : State (Exact f)) (energy : Exact f) (i : Nat) :
    (m.lessRow s energy i).value = energy.value + -((m.fieldOf i).value * spin s i +
      ∑ j ∈ Ico (i + 1) s.length, (m.couplingOf i j).value * spin s i * spin s j) := by
  unfold lessRow
  -- the fold takes the couplings off one by one, the Hamiltonian all at once
  have hbody : ∀ (a : Exact f), ∀ j ∈ following i s.length,
      (a - m.couplingOf i j * s.getD i 0.0 * s.getD j 0.0).value =
        a.value + -((m.couplingOf i j).value * spin s i * spin s j) :=
    fun a j _ => sub_eq_add_neg _ _
  rw [Exact.value_foldl hbody, sum_map_following, sum_neg_distrib, neg_add, ← add_assoc]
  exact congrArg (· + _) (sub_eq_add_neg _ _)

theorem value_energy (h : m.Fits) (hs : s.length = m.size) {energy : Exact f} :
    m.energy s = .ok energy ↔ energy.value = m.hamiltonian s := by
  have htake : s.take m.size = s := List.take_of_length_le (Nat.le_of_eq hs)
  have htotal : ((List.range s.length).foldl (m.lessRow s) 0.0).value = m.hamiltonian s := by
    rw [Exact.value_foldl fun a i _ => value_lessRow m s a i, Exact.value_zero, zero_add,
      sum_map_range, sum_neg_distrib, hs]
    rfl
  rw [energy_eq_ok h, htake, Except.ok.injEq, Exact.ext_iff, htotal, eq_comm]

theorem evaluate_eq_ok_iff (h : m.Fits) {energy : Exact f} :
    m.evaluate s = .ok energy ↔ s.length = m.size ∧ energy.value = m.hamiltonian s := by
  rw [evaluate_eq_ok_iff_energy]
  exact and_congr_right fun hs => value_energy h hs

theorem isMinimiser_iff (h : m.Fits) :
    m.IsMinimiser s ↔ s.length = m.size ∧
      ∀ t : State (Exact f), t.IsSpins → t.length = m.size → m.hamiltonian s ≤ m.hamiltonian t :=
  Exact.least_iff (fun t _ => evaluate_eq_ok_iff (s := t) h) State.IsSpins s

end Ising

end ThermalSearch
