import Mathlib.Algebra.BigOperators.Field
import Mathlib.Data.Rat.Floor
import ThermalSearch.Proofs.Model.IsingEnergy
import ThermalSearch.Proofs.Model.QuboEnergy

/-!
# The spin model of a QUBO

A bit is half of one more than its spin. Put into the quadratic form of a QUBO, this leaves a
coupling for each pair, a field on each spin and a constant. The three are computed by loops of
their own: the model is written row by row (`exists_toIsing`), each field collects a whole row and
column of the triangle, and the constant goes along the rows. In exact arithmetic they fit together
(`hamiltonian_add_offset`): energies of bits and of their spins differ by the constant, so that a
state of least energy is one for both.
-/

namespace ThermalSearch.Qubo

open Finset

section

variable {α : Type} [Scalar α]

/-- The coupling of two spins. -/
def spinCoupling (q : Qubo α) (i j : Nat) : α := -q.coefficient i j / 4.0

/-- The field on a spin. -/
def spinField (q : Qubo α) (i : Nat) : α :=
  (List.range q.size).foldl (fun h j => if j ≠ i then h - q.coefficient i j / 4.0 else h)
    (-q.coefficient i i / 2.0)

/-- The constant that the energy of the bits exceeds that of the spins by. -/
def spinOffset (q : Qubo α) : α :=
  (List.range q.size).foldl (fun offset i => offset + q.coefficient i i / 2.0 +
    Scalar.sum ((following i q.size).map (q.coefficient i)) / 4.0) 0.0

variable {q : Qubo α} {i j : Nat}

theorem isingField_eq_ok (hfits : q.Fits) (hi : i < q.size) :
    q.isingField i = .ok (q.spinField i) := by
  unfold isingField
  refine bind_eq_ok_iff.mpr ⟨_, hfits.get_eq_ok hi hi, ?_⟩
  apply foldlM_eq_ok
  intro h j hj
  split
  · exact bind_eq_ok_iff.mpr ⟨_, hfits.get_eq_ok hi (List.mem_range.mp hj), rfl⟩
  · rfl

theorem isingOffset_eq_ok (hfits : q.Fits) : q.isingOffset = .ok q.spinOffset := by
  unfold isingOffset
  apply foldlM_eq_ok
  intro offset i hi
  have hi' : i < q.size := List.mem_range.mp hi
  refine bind_eq_ok_iff.mpr ⟨_, cell_eq_ok hi' hi' hfits.words, ?_⟩
  refine bind_eq_ok_iff.mpr ⟨_, hfits.read_eq_ok hi' hi', ?_⟩
  refine bind_eq_ok_iff.mpr ⟨(following i q.size).map (q.coefficient i), ?_, rfl⟩
  apply mapM_eq_ok
  intro j hj
  obtain ⟨hij, hj'⟩ := mem_following.mp hj
  exact hfits.read_row_eq_ok hij hj'

/-! ## Writing the model -/

/-- The model `m` has those fields and couplings of `q` that `fields` and `pairs` tell of; a
coupling is asked for from its smaller index. -/
structure Mirrors (q : Qubo α) (fields : Nat → Prop) (pairs : Nat → Nat → Prop) (m : Ising α) :
    Prop where
  fits : m.Fits
  size : m.size = q.size
  field : ∀ i < q.size, fields i → m.fieldOf i = q.spinField i
  coupling : ∀ i j, i < j → j < q.size → pairs i j → m.couplingOf i j = q.spinCoupling i j

variable {fields fields' : Nat → Prop} {pairs pairs' : Nat → Nat → Prop} {m : Ising α}

theorem Mirrors.mono (h : q.Mirrors fields pairs m) (hfields : ∀ i < q.size, fields' i → fields i)
    (hpairs : ∀ i j, i < j → j < q.size → pairs' i j → pairs i j) : q.Mirrors fields' pairs' m where
  fits := h.fits
  size := h.size
  field i hi hwritten := h.field i hi (hfields i hi hwritten)
  coupling i j hij hj hwritten := h.coupling i j hij hj (hpairs i j hij hj hwritten)

theorem Mirrors.setField (h : q.Mirrors fields pairs m) (hi : i < q.size) :
    ∃ m', m.setField i (q.spinField i) = .ok m' ∧
      q.Mirrors (fun k => fields k ∨ k = i) pairs m' := by
  have hcell : i < m.field.size := by
    rw [h.fits.field, h.size]
    exact hi
  obtain ⟨field, hwrite⟩ := Table.exists_write hcell (q.spinField i)
  have hfits : Ising.Fits { m with field := field } :=
    ⟨h.fits.couplings, (Table.size_write hwrite).trans h.fits.field⟩
  refine ⟨{ m with field := field }, bind_eq_ok_iff.mpr ⟨field, hwrite, rfl⟩, ?_⟩
  refine ⟨hfits, h.size, ?_, h.coupling⟩
  intro k hk hwritten
  have hvalue : field.getD k 0.0 = if k = i then q.spinField i else m.fieldOf k := by
    apply Table.getD_write hwrite
    rw [h.fits.field, h.size]
    exact hk
  show field.getD k 0.0 = q.spinField k
  rw [hvalue]
  by_cases hki : k = i
  · rw [if_pos hki, hki]
  · rw [if_neg hki]
    exact h.field k hk (hwritten.resolve_right hki)

theorem Mirrors.setCoupling (h : q.Mirrors fields pairs m) (hij : i < j) (hj : j < q.size) :
    ∃ m', m.setCoupling i j (q.spinCoupling i j) = .ok m' ∧
      q.Mirrors fields (fun k l => pairs k l ∨ k = i ∧ l = j) m' := by
  have hi : i < q.size := Nat.lt_trans hij hj
  have hsize : m.couplings.size = q.size := h.size
  obtain ⟨c, hset, hcsize, hcfits, hentry⟩ := h.fits.couplings.set_eq_ok (hsize ▸ hi) (hsize ▸ hj)
    (Nat.ne_of_lt hij) (q.spinCoupling i j)
  refine ⟨{ m with couplings := c }, bind_eq_ok_iff.mpr ⟨c, hset, rfl⟩, ?_⟩
  refine ⟨⟨hcfits, h.fits.field.trans hcsize.symm⟩, hcsize.trans hsize, h.field, ?_⟩
  intro k l hkl hl hwritten
  have hvalue := hentry k l (hsize ▸ Nat.lt_trans hkl hl) (hsize ▸ hl)
  show c.entry k l = q.spinCoupling k l
  rw [hvalue]
  -- the mirrored cell lies on the other side of the diagonal
  have hside : ¬(k = j ∧ l = i) := by omega
  by_cases hplace : k = i ∧ l = j
  · rw [if_pos (Or.inl hplace), hplace.1, hplace.2]
  · rw [if_neg (not_or.mpr ⟨hplace, hside⟩)]
    exact h.coupling k l hkl hl (hwritten.resolve_right hplace)

theorem mirrors_zero (h : Ising.zero q.size = .ok m) :
    q.Mirrors (fun _ => False) (fun _ _ => False) m where
  fits := (Ising.of_zero_eq_ok h).2
  size := (Ising.of_zero_eq_ok h).1
  field _ _ hnone := hnone.elim
  coupling _ _ _ _ hnone := hnone.elim

/-- Along row `i`, the pairs written so far join those that were there before. -/
theorem Mirrors.setRow (hfits : q.Fits) (h : q.Mirrors fields pairs m) (hi : i < q.size) :
    ∃ m', (following i q.size).foldlM (fun model j => do
        model.setCoupling i j (-(← q.get i j) / 4.0)) m = .ok m' ∧
      q.Mirrors fields (fun k l => pairs k l ∨ k = i ∧ l ∈ following i q.size) m' := by
  -- a row is written over the columns, so that the invariant speaks of those done
  refine foldlM_induction
    (fun columns => q.Mirrors fields (fun k l => pairs k l ∨ k = i ∧ l ∈ columns)) ?_ ?_
  · intro columns j m hj hm
    obtain ⟨hij, hj'⟩ := mem_following.mp hj
    obtain ⟨m', hset, hm'⟩ := hm.setCoupling hij hj'
    refine ⟨m', bind_eq_ok_iff.mpr ⟨_, hfits.get_eq_ok hi hj', hset⟩, ?_⟩
    refine hm'.mono (fun _ _ hk => hk) ?_
    rintro k l - - (hk | ⟨rfl, hl⟩)
    · exact Or.inl (Or.inl hk)
    · rcases List.mem_append.mp hl with hl | hl
      · exact Or.inl (Or.inr ⟨rfl, hl⟩)
      · exact Or.inr ⟨rfl, List.mem_singleton.mp hl⟩
  · refine h.mono (fun _ _ hk => hk) ?_
    rintro k l - - (hk | ⟨-, hl⟩)
    · exact hk
    · exact absurd hl List.not_mem_nil

/-- The model has all the fields and couplings of the QUBO. -/
def IsMirroredBy (q : Qubo α) (m : Ising α) : Prop := q.Mirrors (fun _ => True) (fun _ _ => True) m

/-- Row after row, nothing that is written is spoilt. -/
theorem exists_toIsing (hfits : q.Fits) {start : Ising α} (hstart : Ising.zero q.size = .ok start) :
    ∃ m, q.toIsing = .ok m ∧ q.IsMirroredBy m := by
  have hzero := mirrors_zero hstart
  obtain ⟨m, hm, hmirrors⟩ : ∃ m, q.toIsing = .ok m ∧
      q.Mirrors (· ∈ List.range q.size) (fun i _ => i ∈ List.range q.size) m := by
    unfold toIsing
    rw [hstart]
    -- after some rows, their fields are there and all couplings that start in them
    refine foldlM_induction (fun rows => q.Mirrors (· ∈ rows) (fun i _ => i ∈ rows)) ?_
      (hzero.mono (fun _ _ hk => absurd hk List.not_mem_nil)
        fun _ _ _ _ hk => absurd hk List.not_mem_nil)
    intro rows i m hi hm
    have hi' : i < q.size := List.mem_range.mp hi
    obtain ⟨m₁, hfield, hm₁⟩ := hm.setField hi'
    obtain ⟨m', hrow, hm'⟩ := hm₁.setRow hfits hi'
    refine ⟨m', ?_, hm'.mono ?_ ?_⟩
    · refine bind_eq_ok_iff.mpr ⟨_, isingField_eq_ok hfits hi', ?_⟩
      exact bind_eq_ok_iff.mpr ⟨m₁, hfield, hrow⟩
    · intro k _ hk
      exact (List.mem_append.mp hk).imp id List.mem_singleton.mp
    · intro k l hkl hl hk
      rcases List.mem_append.mp hk with hk | hk
      · exact Or.inl hk
      · have hki : k = i := List.mem_singleton.mp hk
        exact Or.inr ⟨hki, mem_following.mpr ⟨hki ▸ hkl, hl⟩⟩
  refine ⟨m, hm, hmirrors.mono (fun i hi _ => List.mem_range.mpr hi) ?_⟩
  intro i j hij hj _
  exact List.mem_range.mpr (Nat.lt_trans hij hj)

theorem exists_zero_of_toIsing (h : q.toIsing = .ok m) :
    ∃ start : Ising α, Ising.zero q.size = .ok start := by
  unfold toIsing at h
  obtain ⟨start, hstart, -⟩ := bind_eq_ok_iff.mp h
  exact ⟨start, hstart⟩

theorem isMirroredBy_of_toIsing (hfits : q.Fits) (h : q.toIsing = .ok m) : q.IsMirroredBy m := by
  obtain ⟨start, hstart⟩ := exists_zero_of_toIsing h
  obtain ⟨m', hm', hmirrored⟩ := exists_toIsing hfits hstart
  cases h.symm.trans hm'
  exact hmirrored

/-- There is a spin model whenever there can be a table of its couplings. -/
theorem exists_toIsing_iff (hfits : q.Fits) :
    (∃ m, q.toIsing = .ok m) ↔ q.size * q.size * 8 < 2 ^ 63 := by
  have hzero : (∃ start : Ising α, Ising.zero q.size = .ok start) ↔ q.size * q.size * 8 < 2 ^ 63 :=
    Ising.exists_zero_iff
  rw [← hzero]
  constructor
  · rintro ⟨m, h⟩
    exact exists_zero_of_toIsing h
  · rintro ⟨start, hstart⟩
    obtain ⟨m, hm, -⟩ := exists_toIsing hfits hstart
    exact ⟨m, hm⟩

end

/-! ## Exact arithmetic -/

variable {K : Type} [Field K] [LinearOrder K] [FloorSemiring K] {f : Uninterpreted K}
  {q : Qubo (Exact f)} {m : Ising (Exact f)} {x : Bits} {s : State (Exact f)}

theorem value_spinField (q : Qubo (Exact f)) (i : Nat) :
    (q.spinField i).value = -(q.coefficient i i).value / 2 +
      ∑ j ∈ range q.size, if j ≠ i then -((q.coefficient i j).value / 4) else 0 := by
  have hbody : ∀ (h : Exact f), ∀ j ∈ List.range q.size,
      (if j ≠ i then h - q.coefficient i j / 4.0 else h).value =
        h.value + if j ≠ i then -((q.coefficient i j).value / 4) else 0 := by
    intro h j _
    by_cases hj : j ≠ i
    · rw [if_pos hj, if_pos hj, Exact.value_sub, Exact.value_div, Exact.value_four, sub_eq_add_neg]
    · rw [if_neg hj, if_neg hj, add_zero]
  unfold spinField
  rw [Exact.value_foldl hbody, sum_map_range, Exact.value_div, Exact.value_neg, Exact.value_two]

theorem value_spinOffset (q : Qubo (Exact f)) :
    q.spinOffset.value = ∑ i ∈ range q.size, ((q.coefficient i i).value / 2 +
      (∑ j ∈ Ico (i + 1) q.size, (q.coefficient i j).value) / 4) := by
  have hbody : ∀ (a : Exact f), ∀ i ∈ List.range q.size,
      (a + q.coefficient i i / 2.0 +
        Scalar.sum ((following i q.size).map (q.coefficient i)) / 4.0).value =
      a.value + ((q.coefficient i i).value / 2 +
        (∑ j ∈ Ico (i + 1) q.size, (q.coefficient i j).value) / 4) := by
    intro a i _
    simp only [Exact.value_add, Exact.value_div, Exact.value_two, Exact.value_four,
      Exact.value_sum, List.map_map]
    rw [add_assoc]
    exact congrArg (fun rest => a.value + (_ + rest / 4)) (sum_map_following i q.size _)
  unfold spinOffset
  rw [Exact.value_foldl hbody, Exact.value_zero, zero_add, sum_map_range]

/-- The pull on a spin counts each of its coefficients once, a coupling only those of later
spins. -/
theorem hamiltonian_eq (hm : q.IsMirroredBy m) {σ : Nat → K}
    (hs : ∀ i < q.size, Ising.spin s i = σ i) :
    m.hamiltonian s = ∑ i ∈ range q.size, (q.coefficient i i).value / 2 * σ i +
      ∑ i ∈ range q.size, ∑ j ∈ range q.size,
        (if j ≠ i then (q.coefficient i j).value / 4 * σ i else 0) +
      ∑ i ∈ range q.size, ∑ j ∈ Ico (i + 1) q.size,
        (q.coefficient i j).value / 4 * σ i * σ j := by
  unfold Ising.hamiltonian
  rw [hm.size, ← sum_neg_distrib, ← sum_add_distrib, ← sum_add_distrib]
  refine sum_congr rfl ?_
  intro i hi
  have hi' : i < q.size := mem_range.mp hi
  have hcouplings : ∑ j ∈ Ico (i + 1) q.size,
      (m.couplingOf i j).value * Ising.spin s i * Ising.spin s j =
      -∑ j ∈ Ico (i + 1) q.size, (q.coefficient i j).value / 4 * σ i * σ j := by
    rw [← sum_neg_distrib]
    refine sum_congr rfl ?_
    intro j hj
    obtain ⟨hij, hj'⟩ := mem_Ico.mp hj
    rw [hm.coupling i j hij hj' trivial, hs i hi', hs j hj', spinCoupling, Exact.value_div,
      Exact.value_neg, Exact.value_four]
    ring
  have hpull : ∑ j ∈ range q.size, (if j ≠ i then (q.coefficient i j).value / 4 * σ i else 0) =
      -(∑ j ∈ range q.size, if j ≠ i then -((q.coefficient i j).value / 4) else 0) * σ i := by
    rw [← sum_neg_distrib, sum_mul]
    refine sum_congr rfl fun j _ => ?_
    split <;> ring
  rw [hm.field i hi' trivial, value_spinField, hcouplings, hs i hi', hpull]
  ring

/-- Every spin is one for a bit that is set, and minus one for a bit that is not. -/
def Matches (x : Bits) (s : State (Exact f)) : Prop :=
  ∀ i < x.length, Ising.spin s i = (2 : ℕ) * digit K x i - 1

theorem Matches.spin_eq {i : Nat} (h : Matches x s) (hi : i < x.length) :
    Ising.spin s i = 2 * digit K x i - 1 := by
  rw [h i hi, Nat.cast_ofNat]

/-- The energies of bits and of their spins differ by a constant. -/
theorem hamiltonian_add_offset (hm : q.IsMirroredBy m) (hx : x.length = q.size)
    (hs : Matches x s) : m.hamiltonian s + q.spinOffset.value = q.quadratic x := by
  rw [hamiltonian_eq hm fun i hi => hs.spin_eq (hx ▸ hi), sum_off_diagonal, value_spinOffset, quadratic,
    ← sum_add_distrib, ← sum_add_distrib, ← sum_add_distrib]
  refine sum_congr rfl ?_
  intro i hi
  -- a pair contributes a quarter for itself, for each of its spins and for both
  have hpair : ∀ j ∈ Ico (i + 1) q.size,
      digit K x i * digit K x j * (q.coefficient i j).value =
        (q.coefficient i j).value / 4 * (2 * digit K x i - 1) +
          (q.coefficient j i).value / 4 * (2 * digit K x j - 1) +
        (q.coefficient i j).value / 4 * (2 * digit K x i - 1) * (2 * digit K x j - 1) +
        (q.coefficient i j).value / 4 := by
    intro j _
    rw [q.coefficient_comm j i]
    ring
  rw [sum_eq_sum_Ico_succ_bot (mem_range.mp hi), sum_congr rfl hpair, digit_mul_self, sum_div]
  simp only [sum_add_distrib]
  ring

/-! ## Bits and spins -/

@[simp] theorem length_spinsOfBits (x : Bits) :
    (spinsOfBits x : State (Exact f)).length = x.length := List.length_map _

@[simp] theorem length_bitsOfSpins (s : State (Exact f)) : (bitsOfSpins s).length = s.length :=
  List.length_map _

theorem isSpins_spinsOfBits (x : Bits) : (spinsOfBits x : State (Exact f)).IsSpins := by
  intro σ hσ
  obtain ⟨bit, -, rfl⟩ := List.mem_map.mp hσ
  by_cases hbit : isSet bit
  · exact Or.inl (if_pos hbit)
  · exact Or.inr (if_neg hbit)

theorem matches_spinsOfBits (x : Bits) : Matches x (spinsOfBits x : State (Exact f)) := by
  intro i hi
  unfold Ising.spin spinsOfBits digit Bits.holds
  rw [Nat.cast_ofNat, List.getD_eq_getElem?_getD, List.getD_eq_getElem?_getD, List.getElem?_map,
    List.getElem?_eq_getElem hi]
  show (if isSet x[i] then (1.0 : Exact f) else -(1.0)).value =
    2 * (if isSet x[i] then 1 else 0) - 1
  split
  · rw [Exact.value_one]
    ring
  · rw [Exact.value_neg, Exact.value_one]
    ring

theorem hamiltonian_spinsOfBits (hm : q.IsMirroredBy m) (hx : x.length = q.size) :
    m.hamiltonian (spinsOfBits x) + q.spinOffset.value = q.quadratic x :=
  hamiltonian_add_offset hm hx (matches_spinsOfBits x)

variable [IsStrictOrderedRing K]

/-- The spins of the bits of spins are these again. -/
theorem spinsOfBits_bitsOfSpins (hs : s.IsSpins) : spinsOfBits (bitsOfSpins s) = s := by
  have hspin : ∀ σ ∈ s, ((fun bit => if isSet bit then 1.0 else -(1.0)) ∘
      fun σ => if σ ≥ 0.0 then 1 else 0) σ = id σ := by
    intro σ hσ
    rcases hs σ hσ with rfl | rfl
    · have hup : (1.0 : Exact f) ≥ 0.0 := by
        rw [ge_iff_le, Exact.le_iff, Exact.value_zero, Exact.value_one]
        exact zero_le_one
      rw [Function.comp_apply, if_pos hup]
      rfl
    · have hdown : ¬ -(1.0 : Exact f) ≥ 0.0 := by
        rw [ge_iff_le, Exact.le_iff, Exact.value_zero, Exact.value_neg, Exact.value_one, not_le]
        exact neg_one_lt_zero
      rw [Function.comp_apply, if_neg hdown]
      rfl
  unfold spinsOfBits bitsOfSpins
  rw [List.map_map, List.map_congr_left hspin, List.map_id]

theorem hamiltonian_of_isSpins (hm : q.IsMirroredBy m) (hs : s.IsSpins)
    (hlength : s.length = q.size) :
    m.hamiltonian s + q.spinOffset.value = q.quadratic (bitsOfSpins s) := by
  -- `bitsOfSpins` asks for a sign only, so `s` has to be made of spins to come back
  have hbits := hamiltonian_spinsOfBits hm ((length_bitsOfSpins s).trans hlength)
  rw [spinsOfBits_bitsOfSpins hs] at hbits
  exact hbits

/-! ## Results -/

/-- A constant makes no difference to which state is best. -/
theorem isMinimiser_bitsOfSpins (hfits : q.Fits) (hm : q.IsMirroredBy m) (hs : s.IsSpins)
    (hlength : s.length = q.size) : m.IsMinimiser s ↔ q.IsMinimiser (bitsOfSpins s) := by
  have hlength' : (bitsOfSpins s).length = q.size := (length_bitsOfSpins s).trans hlength
  rw [Ising.isMinimiser_iff hm.fits, isMinimiser_iff hfits, hm.size,
    ← hamiltonian_of_isSpins hm hs hlength]
  constructor
  · rintro ⟨-, hleast⟩
    refine ⟨hlength', ?_⟩
    -- any bits compete as their spins
    intro y hy
    rw [← hamiltonian_spinsOfBits hm hy]
    have hle := hleast (spinsOfBits y) (isSpins_spinsOfBits y) ((length_spinsOfBits y).trans hy)
    exact add_le_add_left hle _
  · rintro ⟨-, hleast⟩
    refine ⟨hlength, ?_⟩
    -- and any spins as their bits
    intro t ht htlength
    have hle := hleast (bitsOfSpins t) ((length_bitsOfSpins t).trans htlength)
    rw [← hamiltonian_of_isSpins hm ht htlength] at hle
    exact le_of_add_le_add_right hle

/-- A spin model is made whenever there is room for it. The energy of bits is that of their spins
and the constant, the energy of spins and the constant is that of their bits, and spins have least
energy exactly when their bits have. -/
theorem evaluate_toIsing (q : Qubo (Exact f)) (hfits : q.Fits) :
    ((∃ m, q.toIsing = .ok m) ↔ q.size * q.size * 8 < 2 ^ 63) ∧
    ∀ m, q.toIsing = .ok m → ∃ offset, q.isingOffset = .ok offset ∧
      (∀ x : Bits, x.length = q.size → ∃ energy, m.evaluate (spinsOfBits x) = .ok energy ∧
        q.evaluate x = .ok (energy + offset)) ∧
      ∀ s : State (Exact f), s.IsSpins → s.length = q.size →
        (∃ energy, m.evaluate s = .ok energy ∧
          q.evaluate (bitsOfSpins s) = .ok (energy + offset)) ∧
        (m.IsMinimiser s ↔ q.IsMinimiser (bitsOfSpins s)) := by
  refine ⟨exists_toIsing_iff hfits, ?_⟩
  intro m hm
  have hmirrored : q.IsMirroredBy m := isMirroredBy_of_toIsing hfits hm
  refine ⟨q.spinOffset, isingOffset_eq_ok hfits, ?_, ?_⟩
  · intro x hx
    refine ⟨⟨m.hamiltonian (spinsOfBits x)⟩, ?_, ?_⟩
    · refine (Ising.evaluate_eq_ok_iff hmirrored.fits).mpr ⟨?_, rfl⟩
      rw [length_spinsOfBits, hmirrored.size, hx]
    · exact (evaluate_eq_ok_iff hfits).mpr ⟨hx, hamiltonian_spinsOfBits hmirrored hx⟩
  · intro s hs hlength
    refine ⟨⟨⟨m.hamiltonian s⟩, ?_, ?_⟩, isMinimiser_bitsOfSpins hfits hmirrored hs hlength⟩
    · exact (Ising.evaluate_eq_ok_iff hmirrored.fits).mpr ⟨hlength.trans hmirrored.size.symm, rfl⟩
    · refine (evaluate_eq_ok_iff hfits).mpr ⟨(length_bitsOfSpins s).trans hlength, ?_⟩
      exact hamiltonian_of_isSpins hmirrored hs hlength

/-- Two bits that are worth setting, but not both. -/
def rivals : Qubo (Exact (default : Uninterpreted ℚ)) :=
  { size := 2, entries := #[⟨-1⟩, ⟨3⟩, ⟨-1⟩] }

theorem fits_rivals : rivals.Fits := ⟨rfl, by decide⟩

/-- Any number but zero sets a bit. -/
theorem evaluate_toIsing_rivals : rivals.Fits ∧ ∃ m offset energy,
    rivals.toIsing = .ok m ∧ rivals.isingOffset = .ok offset ∧
      m.evaluate (spinsOfBits [2, 0]) = .ok energy ∧
      rivals.evaluate [2, 0] = .ok (energy + offset) ∧ energy + offset = ⟨-1⟩ := by
  have hresult := evaluate_toIsing rivals fits_rivals
  obtain ⟨m, hm⟩ := hresult.1.mpr (by decide)
  obtain ⟨offset, hoffset, hbits, -⟩ := hresult.2 m hm
  obtain ⟨energy, henergy, hsum⟩ := hbits [2, 0] rfl
  have hevaluated : rivals.evaluate [2, 0] = .ok ⟨-1⟩ :=
    (evaluate_eq_ok_iff fits_rivals).mpr ⟨rfl, by decide +kernel⟩
  refine ⟨fits_rivals, m, offset, energy, hm, hoffset, henergy, hsum, ?_⟩
  exact Except.ok.inj (hsum.symm.trans hevaluated)

end ThermalSearch.Qubo
