import ThermalSearch.Proofs.Model.Entries
import ThermalSearch.Proofs.Model.SpinModel

/-!
# Walking the rows of a QUBO

The energy of a bit vector and the constant of the spin model are computed without asking for the
offset of each entry. They ask for that of the diagonal, where a row starts, and count on from there.
The entries of a row follow each other without a gap (`Fits.row_of_index`), so the walk comes by the
entries that the accessor would give, in the order of the rows, and stays among the cells of its row.

Both results are therefore stated by the accessor alone (`walks_by_accessor`): which pairs of bits are
asked for and in which order, and what the sums are made of. The arithmetic plays no part.
-/

namespace ThermalSearch.Qubo

/-! ## The pairs that are come by -/

/-- The pairs of set bits among the first `n`, row after row, with the diagonal in front. -/
def setPairs (n : Nat) (x : Bits) : List (Nat × Nat) :=
  ((List.range n).filter x.holds).flatMap fun i =>
    (i, i) :: ((following i n).filter x.holds).map (i, ·)

theorem mem_setPairs {n i j : Nat} {x : Bits} :
    (i, j) ∈ setPairs n x ↔ i ≤ j ∧ j < n ∧ x.holds i ∧ x.holds j := by
  simp only [setPairs, List.mem_flatMap, List.mem_cons, List.mem_map, List.mem_filter,
    List.mem_range, mem_following, Prod.mk.injEq]
  constructor
  · rintro ⟨row, ⟨hrow, hset⟩, ⟨rfl, rfl⟩ | ⟨column, ⟨⟨hlt, hcolumn⟩, hset'⟩, rfl, rfl⟩⟩
    · exact ⟨Nat.le_refl _, hrow, hset, hset⟩
    · exact ⟨Nat.le_of_lt hlt, hcolumn, hset, hset'⟩
  · rintro ⟨hij, hj, hi, hj'⟩
    refine ⟨i, ⟨Nat.lt_of_le_of_lt hij hj, hi⟩, ?_⟩
    rcases Nat.lt_or_eq_of_le hij with hlt | rfl
    · exact Or.inr ⟨j, ⟨⟨hlt, hj⟩, hj'⟩, rfl, rfl⟩
    · exact Or.inl ⟨rfl, rfl⟩

/-- Rows come in their order, and so do the columns of one row. -/
theorem pairwise_setPairs (n : Nat) (x : Bits) :
    (setPairs n x).Pairwise (Prod.Lex (· < ·) (· < ·)) := by
  unfold setPairs
  rw [List.pairwise_flatMap]
  constructor
  · intro i _
    rw [List.pairwise_cons, List.pairwise_map]
    constructor
    · intro p hp
      obtain ⟨j, hj, rfl⟩ := List.mem_map.mp hp
      exact Prod.Lex.right i (mem_following.mp (List.mem_of_mem_filter hj)).1
    · have hcolumns : (following i n).Pairwise (· < ·) := List.pairwise_lt_range'
      exact (hcolumns.filter x.holds).imp fun hlt => Prod.Lex.right i hlt
  · -- every pair of a row carries its number
    have hrow : ∀ i, ∀ p ∈ (i, i) :: ((following i n).filter x.holds).map (i, ·), p.1 = i := by
      intro i p hp
      rcases List.mem_cons.mp hp with rfl | hp
      · rfl
      · obtain ⟨j, -, rfl⟩ := List.mem_map.mp hp
        rfl
    refine (List.pairwise_lt_range.filter x.holds).imp ?_
    intro i i' hlt p hp p' hp'
    refine Prod.lex_def.mpr (Or.inl ?_)
    rw [hrow i p hp, hrow i' p' hp']
    exact hlt

variable {α : Type} [Scalar α] {q : Qubo α}

/-- The terms of the energy are the coefficients of these pairs. -/
theorem terms_eq_map (q : Qubo α) (x : Bits) :
    q.terms x = (setPairs q.size x).map fun p => q.coefficient p.1 p.2 := by
  unfold terms rowTerms setPairs
  rw [List.map_flatMap]
  refine List.flatMap_congr ?_
  intro i _
  rw [List.map_cons, List.map_map]
  rfl

/-- Writes lead to nothing but what can be reached. -/
theorem Reachable.writeAll {q' : Qubo α} {writes : List (Write α)} (hq : q.Reachable)
    (h : q.writeAll writes = .ok q') : q'.Reachable := by
  induction writes generalizing q with
  | nil =>
    cases h
    exact hq
  | cons w writes ih =>
    obtain ⟨q₁, hfirst, hrest⟩ := bind_eq_ok_iff.mp h
    refine ih ?_ hrest
    cases w with
    | set i j value => exact hq.set hfirst
    | add i j value => exact hq.add hfirst

/-! ## Rows of the table -/

omit [Scalar α] in
/-- The cells from the diagonal to the end of a row are those of its entries, and can be counted in
64 bits up to the end of the row. -/
theorem Fits.row_of_index (hfits : q.Fits) {i : Nat} (hi : i < q.size) :
    ∃ row, q.index i i = .ok row ∧ row + (q.size - i) ≤ q.entries.size ∧ row + q.size < 2 ^ 64 ∧
      ∀ j, i < j → j < q.size → q.index i j = .ok (row + (j - i)) := by
  have hstart : offset q.size i i = rowStart q.size i := by
    rw [offset_eq_rowStart_add (Nat.le_refl i), Nat.sub_self, Nat.add_zero]
  have hend : rowStart q.size i + (q.size - i) ≤ Qubo.cells q.size := by
    rw [← rowStart_self, ← rowStart_succ hi]
    exact rowStart_le_rowStart hi (Nat.le_refl _)
  refine ⟨rowStart q.size i, hstart ▸ cell_eq_ok hi hi hfits.words, hfits.cells ▸ hend, ?_, ?_⟩
  · -- a row starts before the last cell, and has fewer cells than the table
    have hwords : q.size * (q.size + 1) < 2 ^ 64 := hfits.words
    have hsize : 2 * q.size ≤ q.size * (q.size + 1) := by nlinarith
    unfold Qubo.cells at hend
    omega
  · intro j hij hj
    rw [← offset_eq_rowStart_add (Nat.le_of_lt hij)]
    exact cell_eq_ok hi hj hfits.words

/-- A row with its entry on the diagonal first, as the accessor gives it. -/
def row (q : Qubo α) (i : Nat) : Except Fault (α × List α) := do
  return (← q.get i i, ← (following i q.size).mapM (q.get i))

theorem Fits.row_eq_ok (hfits : q.Fits) {i : Nat} (hi : i < q.size) :
    q.row i = .ok (q.coefficient i i, (following i q.size).map (q.coefficient i)) := by
  refine bind_eq_ok_iff.mpr ⟨_, hfits.get_eq_ok hi hi, ?_⟩
  refine bind_eq_ok_iff.mpr ⟨(following i q.size).map (q.coefficient i), ?_, rfl⟩
  apply mapM_eq_ok
  intro j hj
  exact hfits.get_eq_ok hi (mem_following.mp hj).2

/-- A vector of another length is refused. -/
theorem evaluate_of_length_ne {x : Bits} (hx : x.length ≠ q.size) :
    q.evaluate x = .error (.rejected (.lengthMismatch q.size x.length)) := by
  unfold evaluate requireLength
  rw [if_neg (Ne.symm hx)]
  rfl

/-! ## Result -/

/-- A QUBO that was made by writing to an empty one. Along a row the offsets count on from that of the
diagonal, and none of them leaves the table or the 64-bit numbers. A bit vector is refused if its length
is wrong, and otherwise its energy is the sum, from zero on and from left to right, of what the accessor
gives for the pairs of its set bits. The constant of the spin model is the sum over the rows that the
accessor gives of half the entry on the diagonal and a quarter of the sum of the others. -/
theorem walks_by_accessor (hq : q.Reachable) :
    (∀ i < q.size, ∃ row, q.index i i = .ok row ∧ row + (q.size - i) ≤ q.entries.size ∧
      row + q.size < 2 ^ 64 ∧
      ∀ j, i < j → j < q.size → q.index i j = .ok (row + (j - i))) ∧
    (∀ x : Bits, (setPairs q.size x).Pairwise (Prod.Lex (· < ·) (· < ·)) ∧
      ∀ i j, (i, j) ∈ setPairs q.size x ↔ i ≤ j ∧ j < q.size ∧ x.holds i ∧ x.holds j) ∧
    (∀ x : Bits, x.length ≠ q.size →
      q.evaluate x = .error (.rejected (.lengthMismatch q.size x.length))) ∧
    (∀ x : Bits, x.length = q.size → ∃ values,
      (setPairs q.size x).mapM (fun p => q.get p.1 p.2) = .ok values ∧
        q.evaluate x = .ok (values.foldl (· + ·) 0.0)) ∧
    ∃ rows, (List.range q.size).mapM q.row = .ok rows ∧
      q.isingOffset = .ok (rows.foldl
        (fun offset row => offset + row.1 / 2.0 + Scalar.sum row.2 / 4.0) 0.0) := by
  have hfits : q.Fits := hq.fits
  refine ⟨fun i hi => hfits.row_of_index hi, ?_, fun x hx => evaluate_of_length_ne hx, ?_, ?_⟩
  · intro x
    exact ⟨pairwise_setPairs q.size x, fun i j => mem_setPairs⟩
  · intro x hx
    refine ⟨q.terms x, ?_, evaluate_eq_ok hfits hx⟩
    rw [terms_eq_map]
    apply mapM_eq_ok
    rintro ⟨i, j⟩ hp
    obtain ⟨hij, hj, -, -⟩ := mem_setPairs.mp hp
    exact hfits.get_eq_ok (Nat.lt_of_le_of_lt hij hj) hj
  · refine ⟨(List.range q.size).map fun i =>
      (q.coefficient i i, (following i q.size).map (q.coefficient i)), ?_, ?_⟩
    · apply mapM_eq_ok
      intro i hi
      exact hfits.row_eq_ok (List.mem_range.mp hi)
    · rw [isingOffset_eq_ok hfits, List.foldl_map]
      rfl

/-- Writes to two entries, one of them under both of its names. -/
def repairs : List (Write Float) := [.set 2 0 1.5, .set 1 1 4.0, .add 0 2 0.5]

/-- Three bits without coefficients. -/
def blank : Qubo Float := { size := 3, entries := #[0.0, 0.0, 0.0, 0.0, 0.0, 0.0] }

/-- What the writes make of them. -/
def repaired : Qubo Float := { size := 3, entries := #[0.0, 0.0, 1.5 + 0.5, 4.0, 0.0, 0.0] }

theorem reachable_repaired : repaired.Reachable := by
  have hblank : zero 3 = .ok blank := rfl
  have hrepaired : blank.writeAll repairs = .ok repaired := rfl
  exact (Reachable.zero hblank).writeAll hrepaired

/-- Any number but zero sets a bit. -/
theorem walks_by_accessor_repaired : repaired.Reachable ∧
    repaired.evaluate [1, 0, 7] = .ok (0.0 + 0.0 + (1.5 + 0.5) + 0.0) ∧
    repaired.evaluate [1, 0] = .error (.rejected (.lengthMismatch 3 2)) := by
  obtain ⟨-, -, hrefused, henergy, -⟩ := walks_by_accessor reachable_repaired
  refine ⟨reachable_repaired, ?_, hrefused [1, 0] (by decide)⟩
  obtain ⟨values, hread, hevaluated⟩ := henergy [1, 0, 7] rfl
  have hvalues : values = [0.0, 1.5 + 0.5, 0.0] := Except.ok.inj (hread.symm.trans rfl)
  rw [hevaluated, hvalues]
  rfl

end ThermalSearch.Qubo
