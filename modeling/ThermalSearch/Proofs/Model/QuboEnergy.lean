import Mathlib.Data.FinEnum
import Mathlib.Data.Set.Finite.Lemmas
import Mathlib.Data.Set.Finite.List
import ThermalSearch.Proofs.Iteration
import ThermalSearch.Proofs.Model.Triangle
import ThermalSearch.Proofs.Scalar.Exact
import ThermalSearch.Proofs.Sums

/-!
# The energy of a bit vector

The energy is computed along the rows of the triangle, from the set bits only. `energy_eq_ok` says
which coefficients are added, in which order, whatever the arithmetic. In exact arithmetic that is
the quadratic form of the coefficients (`value_energy`), which changes by one product when a
coefficient is added to (`quadratic_add`): a QUBO that is built by additions means the sum of what
was added.
-/

namespace ThermalSearch

/-- Whether bit `i` is set. -/
def Bits.holds (x : Bits) (i : Nat) : Bool := isSet (x.getD i 0)

namespace Qubo

section

variable {α : Type} [Scalar α]

/-- The coefficient of bits `i` and `j`. -/
def coefficient (q : Qubo α) (i j : Nat) : α := q.entries.getD (offset q.size i j) 0.0

theorem coefficient_comm (q : Qubo α) (i j : Nat) : q.coefficient i j = q.coefficient j i := by
  unfold coefficient
  rw [offset_comm]

/-- There is a coefficient for each pair of bits, and its offset is a 64-bit number. -/
structure Fits (q : Qubo α) : Prop where
  cells : q.entries.size = cells q.size
  words : q.size * (q.size + 1) < 2 ^ 64

/-- What the coefficient of bit `i` and those with the set bits after it are. -/
def rowTerms (q : Qubo α) (x : Bits) (i : Nat) : List α :=
  q.coefficient i i :: ((following i q.size).filter x.holds).map (q.coefficient i)

/-- What the energy of `x` is the sum of: the terms of the rows of its set bits. -/
def terms (q : Qubo α) (x : Bits) : List α :=
  ((List.range q.size).filter x.holds).flatMap (q.rowTerms x)

/-! ## Reading -/

variable {q q' : Qubo α} {x : Bits} {i j v w : Nat} {c : α}

theorem Fits.read_eq_ok (hfits : q.Fits) (hi : i < q.size) (hj : j < q.size) :
    Table.read q.entries (offset q.size i j) = .ok (q.coefficient i j) := by
  apply Table.read_eq_ok
  rw [hfits.cells]
  exact offset_lt hi hj

theorem Fits.get_eq_ok (hfits : q.Fits) (hi : i < q.size) (hj : j < q.size) :
    q.get i j = .ok (q.coefficient i j) :=
  bind_eq_ok_iff.mpr ⟨_, cell_eq_ok hi hj hfits.words, hfits.read_eq_ok hi hj⟩

/-- Along row `i`, the entries follow the one on the diagonal. -/
theorem Fits.read_row_eq_ok (hfits : q.Fits) (hij : i < j) (hj : j < q.size) :
    Table.read q.entries (offset q.size i i + (j - i)) = .ok (q.coefficient i j) := by
  have hplace : offset q.size i i + (j - i) = offset q.size i j := by
    rw [offset_eq_rowStart_add (Nat.le_refl i), offset_eq_rowStart_add (Nat.le_of_lt hij)]
    omega
  rw [hplace]
  exact hfits.read_eq_ok (Nat.lt_trans hij hj) hj

theorem addRow_eq_ok (hfits : q.Fits) (hx : x.length = q.size) (hi : i < q.size) (energy : α) :
    q.addRow x.toArray energy i = .ok ((q.rowTerms x i).foldl (· + ·) energy) := by
  unfold addRow
  refine bind_eq_ok_iff.mpr ⟨_, cell_eq_ok hi hi hfits.words, ?_⟩
  refine bind_eq_ok_iff.mpr ⟨_, hfits.read_eq_ok hi hi, ?_⟩
  -- one pass along the row
  have hbody : ∀ (s : α), ∀ j ∈ following i x.toArray.size,
      (do
        if isSet (← Table.read x.toArray j) then
          return s + (← Table.read q.entries (offset q.size i i + (j - i)))
        else return s : Except Fault α) =
      .ok (if x.holds j then s + q.coefficient i j else s) := by
    intro s j hj
    have hij : i < j ∧ j < q.size := by
      rw [List.size_toArray, hx] at hj
      exact mem_following.mp hj
    have hbit : j < x.length := hx ▸ hij.2
    rw [Table.read_toArray hbit 0, hfits.read_row_eq_ok hij.1 hij.2]
    show (if x.holds j then _ else _) = _
    split <;> rfl
  rw [foldlM_eq_ok hbody, rowTerms, List.foldl_cons, List.foldl_map, List.foldl_filter,
    List.size_toArray, hx]

/-- The energy is the sum from left to right of its terms. -/
theorem energy_eq_ok (hfits : q.Fits) (hx : x.length = q.size) :
    q.energy x = .ok ((q.terms x).foldl (· + ·) 0.0) := by
  have hbody : ∀ (s : α), ∀ i ∈ List.range x.toArray.size,
      (do if isSet (← Table.read x.toArray i) then q.addRow x.toArray s i else return s :
        Except Fault α) =
      .ok (if x.holds i then (q.rowTerms x i).foldl (· + ·) s else s) := by
    intro s i hi
    have hi' : i < q.size := by
      rw [List.size_toArray, hx] at hi
      exact List.mem_range.mp hi
    rw [Table.read_toArray (hx ▸ hi') 0, addRow_eq_ok hfits hx hi']
    show (if x.holds i then _ else _) = _
    split <;> rfl
  have htake : x.take q.size = x := List.take_of_length_le (Nat.le_of_eq hx)
  unfold energy
  rw [htake, foldlM_eq_ok hbody, terms, List.foldl_flatMap, List.foldl_filter, List.size_toArray,
    hx]

theorem evaluate_eq_ok (hfits : q.Fits) (hx : x.length = q.size) :
    q.evaluate x = .ok ((q.terms x).foldl (· + ·) 0.0) := by
  unfold evaluate
  rw [check_eq_ok_iff, liftRejection_eq_ok_iff, requireLength_eq_ok_iff, liftFault_eq_ok_iff]
  exact ⟨hx.symm, energy_eq_ok hfits hx⟩

/-- Only vectors of the right length have an energy. -/
theorem length_of_evaluate {energy : α} (h : q.evaluate x = .ok energy) : x.length = q.size := by
  unfold evaluate at h
  rw [check_eq_ok_iff, liftRejection_eq_ok_iff, requireLength_eq_ok_iff] at h
  exact h.1.symm

/-- No bit vector of the right length has less energy. -/
def IsMinimiser (q : Qubo α) (x : Bits) : Prop :=
  ∃ energy, q.evaluate x = .ok energy ∧ ∀ y other, q.evaluate y = .ok other → energy ≤ other

/-! ## Building -/

/-- A QUBO without coefficients has room for all of them, and they are zero. -/
theorem of_zero_eq_ok {n : Nat} (h : zero n = .ok q) :
    q.size = n ∧ q.Fits ∧ ∀ i j, q.coefficient i j = 0.0 := by
  unfold zero at h
  rcases bind_eq_ok_iff.mp h with ⟨next, hnext, h⟩
  rcases bind_eq_ok_iff.mp h with ⟨twice, htwice, h⟩
  rcases bind_eq_ok_iff.mp h with ⟨entries, hentries, h⟩
  rcases bind_eq_ok_iff.mp hentries with ⟨⟨⟩, -, hfill⟩
  cases h
  cases hfill
  rw [(Word.add_eq_ok_iff.mp hnext).2] at htwice
  rw [(Word.mul_eq_ok_iff.mp htwice).2]
  refine ⟨rfl, ⟨Array.size_replicate, (Word.mul_eq_ok_iff.mp htwice).1⟩, ?_⟩
  intro i j
  unfold coefficient
  rw [Array.getD_eq_getD_getElem?, Array.getElem?_replicate]
  split <;> rfl

omit [Scalar α] in
theorem Fits.of_set_eq_ok (hfits : q.Fits) (h : q.set v w c = .ok q') :
    q'.size = q.size ∧ q'.Fits := by
  obtain ⟨cell, -, h⟩ := bind_eq_ok_iff.mp h
  obtain ⟨entries, hwrite, h⟩ := bind_eq_ok_iff.mp h
  cases h
  exact ⟨rfl, (Table.size_write hwrite).trans hfits.cells, hfits.words⟩

/-- A write to the cell of two bits changes their coefficient and no other. -/
theorem Fits.of_write_eq_ok (hfits : q.Fits) (hv : v < q.size) (hw : w < q.size)
    {entries : Array α} (hwrite : Table.write q.entries (offset q.size v w) c = .ok entries) :
    Fits { q with entries := entries } ∧
      ∀ i j, i ≤ j → j < q.size → coefficient { q with entries := entries } i j =
        if i = min v w ∧ j = max v w then c else q.coefficient i j := by
  refine ⟨⟨(Table.size_write hwrite).trans hfits.cells, hfits.words⟩, ?_⟩
  intro i j hij hj
  have hi : i < q.size := Nat.lt_of_le_of_lt hij hj
  -- the only entry of the triangle that is written to
  have hplace : offset q.size i j = offset q.size v w ↔ i = min v w ∧ j = max v w := by
    rw [← offset_min_max q.size v w]
    constructor
    · intro hsame
      exact offset_injective hij hj min_le_max (Nat.max_lt.mpr ⟨hv, hw⟩) hsame
    · rintro ⟨rfl, rfl⟩
      rfl
  have hvalue : entries.getD (offset q.size i j) 0.0 =
      if offset q.size i j = offset q.size v w then c else q.coefficient i j := by
    apply Table.getD_write hwrite
    rw [hfits.cells]
    exact offset_lt hi hj
  show entries.getD (offset q.size i j) 0.0 = _
  rw [hvalue]
  by_cases hsame : i = min v w ∧ j = max v w
  · rw [if_pos (hplace.mpr hsame), if_pos hsame]
  · rw [if_neg (fun h => hsame (hplace.mp h)), if_neg hsame]

/-- An addition changes the coefficient of its two bits and no other. -/
theorem of_add_eq_ok (hfits : q.Fits) (h : q.add v w c = .ok q') :
    v < q.size ∧ w < q.size ∧ q'.size = q.size ∧ q'.Fits ∧
      ∀ i j, i ≤ j → j < q.size → q'.coefficient i j =
        if i = min v w ∧ j = max v w then q.coefficient i j + c else q.coefficient i j := by
  unfold add at h
  rcases bind_eq_ok_iff.mp h with ⟨cell, hcell, h⟩
  rcases bind_eq_ok_iff.mp h with ⟨old, hold, h⟩
  rcases bind_eq_ok_iff.mp h with ⟨entries, hwrite, h⟩
  cases h
  rcases of_cell_eq_ok hcell with ⟨hv, hw, rfl⟩
  rw [hfits.read_eq_ok hv hw] at hold
  cases hold
  obtain ⟨hfits', hcoefficient⟩ := hfits.of_write_eq_ok hv hw hwrite
  refine ⟨hv, hw, rfl, hfits', ?_⟩
  intro i j hij hj
  rw [hcoefficient i j hij hj]
  split
  next hsame =>
    -- it is the old coefficient of the two bits that was added to
    have hentry : q.coefficient v w = q.coefficient i j := by
      unfold coefficient
      rw [hsame.1, hsame.2, offset_min_max]
    rw [hentry]
  next => rfl

/-- What can be made of a QUBO without coefficients by writing to it. -/
inductive Reachable : Qubo α → Prop where
  | zero {n : Nat} {q : Qubo α} (h : zero n = .ok q) : Reachable q
  | set {q q' : Qubo α} {i j : Nat} {value : α} (hq : Reachable q) (h : q.set i j value = .ok q') :
    Reachable q'
  | add {q q' : Qubo α} {i j : Nat} {value : α} (hq : Reachable q) (h : q.add i j value = .ok q') :
    Reachable q'

/-- However a QUBO was made, it has room for all its coefficients. -/
theorem Reachable.fits (h : q.Reachable) : q.Fits := by
  induction h with
  | zero h => exact (of_zero_eq_ok h).2.1
  | set _ h ih => exact (ih.of_set_eq_ok h).2
  | add _ h ih => exact (of_add_eq_ok ih h).2.2.2.1

end

/-! ## Exact arithmetic -/

open Finset

section

variable {K : Type} [Field K]

/-- A bit as a number. -/
def digit (K : Type) [Field K] (x : Bits) (i : Nat) : K := if x.holds i then 1 else 0

theorem digit_mul_self (x : Bits) (i : Nat) : digit K x i * digit K x i = digit K x i := by
  unfold digit
  split <;> simp

end

variable {K : Type} [Field K] [LinearOrder K] [FloorSemiring K] {f : Uninterpreted K}
  {q q' : Qubo (Exact f)} {x : Bits} {v w : Nat} {c : Exact f}

/-- The quadratic form of the coefficients. -/
def quadratic (q : Qubo (Exact f)) (x : Bits) : K :=
  ∑ i ∈ range q.size, ∑ j ∈ Ico i q.size, digit K x i * digit K x j * (q.coefficient i j).value

theorem sum_terms (q : Qubo (Exact f)) (x : Bits) :
    ((q.terms x).map Exact.value).sum = q.quadratic x := by
  unfold terms quadratic
  rw [sum_map_flatMap, sum_map_filter, sum_map_range]
  refine sum_congr rfl ?_
  intro i hi
  have hi' : i < q.size := mem_range.mp hi
  cases hx : x.holds i with
  | false => simp [digit, hx]
  | true =>
    rw [if_pos rfl, rowTerms, List.map_cons, List.sum_cons, List.map_map, sum_map_filter,
      sum_map_following, sum_eq_sum_Ico_succ_bot hi']
    simp [digit, hx]

/-- Without rounding, the energy is the quadratic form. -/
theorem value_energy (q : Qubo (Exact f)) (x : Bits) :
    ((q.terms x).foldl (· + ·) 0.0).value = q.quadratic x := by
  rw [Exact.value_foldl_add, sum_terms, Exact.value_zero, zero_add]

theorem quadratic_zero {n : Nat} (h : zero n = .ok q) : q.quadratic x = 0 := by
  unfold quadratic
  refine sum_eq_zero fun i _ => sum_eq_zero fun j _ => ?_
  rw [(of_zero_eq_ok h).2.2, Exact.value_zero, mul_zero]

/-- Adding to a coefficient adds to the energy where both bits are set. -/
theorem quadratic_add (hfits : q.Fits) (h : q.add v w c = .ok q') :
    q'.quadratic x = q.quadratic x + digit K x v * digit K x w * c.value := by
  rcases of_add_eq_ok hfits h with ⟨hv, hw, hsize, -, hcoefficient⟩
  have hlow : min v w ∈ range q.size := mem_range.mpr (Nat.lt_of_le_of_lt (Nat.min_le_left v w) hv)
  have hhigh : max v w ∈ Ico (min v w) q.size :=
    mem_Ico.mpr ⟨min_le_max, Nat.max_lt.mpr ⟨hv, hw⟩⟩
  have hpair : digit K x (min v w) * digit K x (max v w) = digit K x v * digit K x w := by
    rcases Nat.le_total v w with hvw | hvw
    · rw [Nat.min_eq_left hvw, Nat.max_eq_right hvw]
    · rw [Nat.min_eq_right hvw, Nat.max_eq_left hvw, mul_comm]
  -- what the addition contributes to the entry `(i, j)`
  have hentry : ∀ i ∈ range q.size, ∀ j ∈ Ico i q.size,
      digit K x i * digit K x j * (q'.coefficient i j).value =
        digit K x i * digit K x j * (q.coefficient i j).value +
          if i = min v w then (if j = max v w then digit K x i * digit K x j * c.value else 0)
          else 0 := by
    intro i _ j hj
    rw [hcoefficient i j (mem_Ico.mp hj).1 (mem_Ico.mp hj).2]
    by_cases hi : i = min v w
    · by_cases hj : j = max v w
      · rw [if_pos ⟨hi, hj⟩, if_pos hi, if_pos hj, Exact.value_add, mul_add]
      · rw [if_neg (fun h => hj h.2), if_pos hi, if_neg hj, add_zero]
    · rw [if_neg (fun h => hi h.1), if_neg hi, add_zero]
  have hsplit : q'.quadratic x = q.quadratic x + ∑ i ∈ range q.size, ∑ j ∈ Ico i q.size,
      if i = min v w then (if j = max v w then digit K x i * digit K x j * c.value else 0)
      else 0 := by
    unfold quadratic
    rw [hsize, ← sum_add_distrib]
    refine sum_congr rfl fun i hi => ?_
    rw [← sum_add_distrib]
    exact sum_congr rfl (hentry i hi)
  rw [hsplit, sum_eq_single_of_mem (min v w) hlow, sum_eq_single_of_mem (max v w) hhigh, if_pos rfl,
    if_pos rfl, hpair]
  · intro j _ hj
    rw [if_pos rfl, if_neg hj]
  · intro i _ hi
    exact sum_eq_zero fun j _ => if_neg hi

theorem evaluate_eq_ok_iff (hfits : q.Fits) {energy : Exact f} :
    q.evaluate x = .ok energy ↔ x.length = q.size ∧ energy.value = q.quadratic x := by
  constructor
  · intro h
    have hx : x.length = q.size := length_of_evaluate h
    rw [evaluate_eq_ok hfits hx] at h
    rw [← Except.ok.inj h]
    exact ⟨hx, value_energy q x⟩
  · rintro ⟨hx, henergy⟩
    rw [evaluate_eq_ok hfits hx]
    exact congrArg Except.ok (Exact.ext ((value_energy q x).trans henergy.symm))

theorem isMinimiser_iff (hfits : q.Fits) :
    q.IsMinimiser x ↔
      x.length = q.size ∧ ∀ y : Bits, y.length = q.size → q.quadratic x ≤ q.quadratic y := by
  have hleast := Exact.least_iff (fun x _ => evaluate_eq_ok_iff (x := x) hfits) (fun _ => True) x
  simp only [true_implies] at hleast
  exact hleast

/-- There are finitely many vectors to choose from. -/
theorem exists_isMinimiser (hfits : q.Fits) : ∃ x, q.IsMinimiser x := by
  obtain ⟨x, hx, hleast⟩ := Set.exists_min_image {x : Bits | x.length = q.size} q.quadratic
    (List.finite_length_eq UInt8 q.size) ⟨List.replicate q.size 0, List.length_replicate⟩
  exact ⟨x, (isMinimiser_iff hfits).mpr ⟨hx, hleast⟩⟩

end Qubo

end ThermalSearch
