import ThermalSearch.Proofs.Model.PottsEnergy
import ThermalSearch.Proofs.Scalar.Counts

/-!
# Search states as assignments of Potts states

A search reads its numbers through `decode` and an evaluation checks the states it is given, and then both
take the same sums. Since every number is read as a state that there is, whatever the arithmetic makes of
it, the check always passes on what was read and the two energies are one computation. Of a longer state
only the spins of the model are looked at (`energy_take`).

Among floats the reading is by rounding: to the nearest state, with halves going up, the first state for
what is negative and the last one for what is beyond it (`decodeOne_eq_floor`).
-/

namespace ThermalSearch.Potts

open Finset

section

variable {α : Type} [Scalar α] {m : Potts α}

/-- A row looks at the spins of the model only. -/
theorem lessRow_take (spins : List Nat) (energy : α) {i : Nat} (hi : i < m.size) :
    m.lessRow (spins.take m.size) energy i = m.lessRow spins energy i := by
  have hspin : ∀ j < m.size, (spins.take m.size).getD j 0 = spins.getD j 0 := by
    intro j hj
    rw [List.getD_eq_getElem?_getD, List.getElem?_take_of_lt hj, List.getD_eq_getElem?_getD]
  unfold lessRow
  rw [hspin i hi]
  apply List.foldl_ext
  intro energy j hj
  rw [hspin j (mem_following.mp hj).2]

/-- Spins that the model does not have do not count. -/
theorem energy_take (hfits : m.Fits) (hstates : 0 < m.states) {state : State α}
    (hlength : m.size ≤ state.length) : m.energy (state.take m.size) = m.energy state := by
  have htake : (state.take m.size).length = m.size := List.length_take_of_le hlength
  have hlong : m.Covers (m.decode state) :=
    ⟨(length_decode m state).symm ▸ hlength, decode_lt hstates state⟩
  have hshort : m.Covers (m.decode (state.take m.size)) :=
    ⟨(length_decode m _).symm ▸ htake.ge, decode_lt hstates _⟩
  have hdecode : m.decode (state.take m.size) = (m.decode state).take m.size := List.map_take
  have hsame : (List.range m.size).foldl (m.lessRow (m.decode (state.take m.size))) (0.0 : α) =
      (List.range m.size).foldl (m.lessRow (m.decode state)) 0.0 := by
    rw [hdecode]
    apply List.foldl_ext
    intro energy i hi
    exact lessRow_take _ energy (List.mem_range.mp hi)
  rw [energy_of_length htake, energyOf_eq_ok hfits hshort, hsame, ← energyOf_eq_ok hfits hlong]
  exact (if_neg (Nat.not_lt.mpr hlength)).symm

end

/-! ## Floats as states -/

section

open Binary64

variable {m : Potts Float} {x : Float}

/-- A finite float stands for the nearest state. -/
theorem decodeOne_eq_floor (hx : x.isFinite) (hstates : m.states ≤ 2 ^ 64) :
    m.decodeOne x = min ⌊value x + 1 / 2⌋₊ (m.states - 1) := by
  unfold decodeOne
  rw [nearest_eq_floor hx]
  omega

theorem decodeOne_of_isNaN (hx : x.isNaN) : m.decodeOne x = 0 := by
  rw [decodeOne, nearest_of_isNaN hx, Nat.zero_min]

theorem decodeOne_infinity (hstates : m.states ≤ 2 ^ 64) :
    m.decodeOne (infinite .positive) = m.states - 1 := by
  rw [decodeOne, nearest_infinity]
  omega

theorem decodeOne_neg_infinity : m.decodeOne (infinite .negative) = 0 := by
  rw [decodeOne, nearest_neg_infinity, Nat.zero_min]

end

/-! ## Result -/

/-- Every state of the search is read as an assignment to states that there are, whose evaluation returns
the energy that the search sees; a longer state counts with its first spins, a shorter one is worse than
any other. Without rounding, an evaluation is the Hamiltonian of the couplings and fields that the model
gives out. Floats are read by rounding to the nearest state. -/
theorem evaluate_decode :
    (∀ (α : Type) [Scalar α] (m : Potts α), m.Reachable →
      (∀ state : State α, state.length = m.size →
        (m.decode state).length = m.size ∧ (∀ s ∈ m.decode state, s < m.states) ∧
          ∃ energy, m.evaluate (m.decode state) = .ok energy ∧ m.energy state = .ok energy) ∧
      (∀ state : State α, m.size < state.length →
        m.energy state = m.energy (state.take m.size)) ∧
      ∀ state : State α, state.length < m.size → m.energy state = .ok Scalar.infinity) ∧
    (∀ (K : Type) [Field K] [LinearOrder K] [FloorSemiring K] (f : Uninterpreted K)
        (m : Potts (Exact f)), m.Reachable →
      (∀ i j, i < m.size → j < m.size → m.coupling i j = .ok (m.couplingOf i j)) ∧
      (∀ i s, i < m.size → s < m.states → m.fieldAt i s = .ok (m.fieldOf i s)) ∧
      ∀ spins : List Nat, spins.length = m.size → (∀ s ∈ spins, s < m.states) →
        ∃ energy, m.evaluate spins = .ok energy ∧
          energy.value =
            -(∑ i ∈ range m.size, ∑ j ∈ Ico (i + 1) m.size,
                (m.couplingOf i j).value * if spins.getD i 0 = spins.getD j 0 then 1 else 0) -
              ∑ i ∈ range m.size, (m.fieldOf i (spins.getD i 0)).value) ∧
    ∀ m : Potts Float, m.states ≤ 2 ^ 64 →
      (∀ x : Float, x.isFinite →
        m.decodeOne x = min ⌊Binary64.value x + 1 / 2⌋₊ (m.states - 1)) ∧
      (∀ x : Float, x.isNaN → m.decodeOne x = 0) ∧
      m.decodeOne (1.0 / 0.0) = m.states - 1 ∧ m.decodeOne (-1.0 / 0.0) = 0 := by
  refine ⟨?_, ?_, ?_⟩
  · intro α _ m hm
    obtain ⟨hfits, hstates⟩ := hm.fits
    refine ⟨?_, ?_, ?_⟩
    · intro state hlength
      have hdecoded : (m.decode state).length = m.size := (length_decode m state).trans hlength
      have hvalid := decode_lt hstates state
      have henergy := energyOf_eq_ok hfits ⟨hdecoded.ge, hvalid⟩
      refine ⟨hdecoded, hvalid, _, evaluate_eq_ok_iff.mpr ⟨hdecoded, hvalid, henergy⟩, ?_⟩
      rw [energy_of_length hlength, henergy]
    · intro state hlength
      exact (energy_take hfits hstates hlength.le).symm
    · intro state hlength
      exact if_pos hlength
  · intro K _ _ _ f m hm
    obtain ⟨hfits, -⟩ := hm.fits
    refine ⟨fun i j hi hj => hfits.coupling_eq_ok hi hj, fun i s hi hs => hfits.fieldAt_eq_ok hi hs, ?_⟩
    intro spins hlength hvalid
    refine ⟨⟨m.hamiltonian spins⟩,
      (evaluate_eq_ok_iff_hamiltonian hfits).mpr ⟨⟨hlength, hvalid⟩, rfl⟩, ?_⟩
    have hpair : ∀ i j, (m.couplingOf i j).value * (if spins.getD i 0 = spins.getD j 0 then 1 else 0) =
        if spins.getD j 0 = spins.getD i 0 then (m.couplingOf i j).value else 0 := by
      intro i j
      rw [mul_ite, mul_one, mul_zero]
      exact if_congr eq_comm rfl rfl
    unfold hamiltonian
    rw [sum_add_distrib, neg_add_rev, ← sub_eq_add_neg]
    simp only [hpair]
  · intro m hstates
    exact ⟨fun x hx => decodeOne_eq_floor hx hstates, fun x hx => decodeOne_of_isNaN hx,
      decodeOne_infinity hstates, decodeOne_neg_infinity⟩

/-- Two spins of three states: one is drawn to its last state and the other to its first, and they are
coupled. -/
def drawnApart (α : Type) [Scalar α] : Except (Failure α) (Potts α) := do
  let m ← zero 2 3
  let m ← (m.setField 0 2 1.0 : Except Fault _)
  let m ← (m.setField 1 0 2.0 : Except Fault _)
  (m.setCoupling 1 0 4.0 : Except Fault _)

theorem reachable_drawnApart {α : Type} [Scalar α] {m : Potts α} (h : drawnApart α = .ok m) :
    m.Reachable := by
  obtain ⟨start, hstart, h⟩ := bind_eq_ok_iff.mp h
  obtain ⟨m₁, h₁, h⟩ := bind_eq_ok_iff.mp h
  obtain ⟨m₂, h₂, h⟩ := bind_eq_ok_iff.mp h
  have hfields : m₂.Reachable :=
    .setField (.setField (.zero hstart) (liftFault_eq_ok_iff.mp h₁)) (liftFault_eq_ok_iff.mp h₂)
  exact .setCoupling hfields (liftFault_eq_ok_iff.mp h)

/-- Beyond the last state is the last state, and below zero the first. -/
theorem evaluate_decode_clamped :
    (∃ (m : Potts Float) (energy : Float), drawnApart Float = .ok m ∧
      m.decode [7.25, -1.0] = [2, 0] ∧ m.evaluate [2, 0] = .ok energy ∧
      m.energy [7.25, -1.0] = .ok energy ∧ m.energy [7.25, -1.0, 0.5] = .ok energy ∧
      m.energy [7.25] = .ok (1.0 / 0.0) ∧ m.decodeOne (0.0 / 0.0) = 0) ∧
    ∃ (m : Potts (Exact (default : Uninterpreted ℚ))) (energy : Exact (default : Uninterpreted ℚ)),
      drawnApart _ = .ok m ∧ m.evaluate [0, 0] = .ok energy ∧ energy.value = -4 - 2 := by
  obtain ⟨hview, hexact, hfloat⟩ := evaluate_decode
  constructor
  · obtain ⟨m, hm⟩ : ∃ m, drawnApart Float = .ok m := ⟨_, by rfl⟩
    obtain ⟨hsame, hlonger, hshorter⟩ := hview Float m (reachable_drawnApart hm)
    have hshape : m.size = 2 ∧ m.states = 3 ∧ m.decode [7.25, -1.0] = [2, 0] := by
      cases hm
      exact ⟨rfl, rfl, by rfl⟩
    rw [hshape.1] at hsame hlonger hshorter
    obtain ⟨-, -, energy, hevaluate, henergy⟩ := hsame [7.25, -1.0] rfl
    rw [hshape.2.2] at hevaluate
    refine ⟨m, energy, hm, hshape.2.2, hevaluate, henergy, ?_, hshorter [7.25] (by decide), ?_⟩
    · exact (hlonger [7.25, -1.0, 0.5] (by decide)).trans henergy
    · exact (hfloat m (by rw [hshape.2.1]; decide)).2.1 (0.0 / 0.0) (by rfl)
  · obtain ⟨m, hm⟩ : ∃ m, drawnApart (Exact (default : Uninterpreted ℚ)) = .ok m := ⟨_, by rfl⟩
    obtain ⟨hcoupling, hfield, hvalue⟩ := hexact ℚ default m (reachable_drawnApart hm)
    have hmodel : m.size = 2 ∧ m.states = 3 ∧ m.coupling 0 1 = .ok 4.0 ∧ m.fieldAt 0 0 = .ok 0.0 ∧
        m.fieldAt 1 0 = .ok 2.0 := by
      cases hm
      exact ⟨rfl, rfl, rfl, rfl, rfl⟩
    obtain ⟨hsize, hstates, hcoupled, hfirst, hsecond⟩ := hmodel
    rw [hsize] at hcoupling hfield hvalue
    rw [hstates] at hfield hvalue
    have hJ : m.couplingOf 0 1 = 4.0 :=
      Except.ok.inj ((hcoupling 0 1 (by decide) (by decide)).symm.trans hcoupled)
    have hh : m.fieldOf 0 0 = 0.0 ∧ m.fieldOf 1 0 = 2.0 :=
      ⟨Except.ok.inj ((hfield 0 0 (by decide) (by decide)).symm.trans hfirst),
        Except.ok.inj ((hfield 1 0 (by decide) (by decide)).symm.trans hsecond)⟩
    obtain ⟨energy, henergy, hsum⟩ := hvalue [0, 0] rfl (by decide)
    refine ⟨m, energy, hm, henergy, ?_⟩
    have hpairs : Ico 1 2 = {1} ∧ Ico 2 2 = ∅ := by decide
    rw [hsum, sum_range_succ, sum_range_one, sum_range_succ, sum_range_one, hpairs.1, hpairs.2,
      sum_singleton, sum_empty]
    show -((m.couplingOf 0 1).value * 1 + 0) -
      ((m.fieldOf 0 0).value + (m.fieldOf 1 0).value) = -4 - 2
    rw [hJ, hh.1, hh.2, Exact.value_four, Exact.value_zero, Exact.value_two]
    norm_num

end ThermalSearch.Potts
