import Mathlib.Data.Set.Function
import Mathlib.Data.Sym.Sym2
import ThermalSearch.Proofs.Model.QuboEnergy

/-!
# The entries of a QUBO

The triangle is laid out without gaps: each pair of bits has an offset of its own, and each offset below
the number of cells is that of a pair (`bijOn_offset`), row after row (`offset_lt_offset_iff`). Where the
cells can be counted in 64 bits, no step of the computation of an offset leaves them (`cell_eq_ite`), nor
does its division drop anything (`two_dvd_above`).

So the entries are variables of their own. One write changes one of them (`Fits.apply_eq_ok`), and a
sequence of writes leaves in each what the writes to it make of it, in their order
(`Fits.writeAll_eq_ok`); those to other pairs play no part.
-/

namespace ThermalSearch.Qubo

/-! ## Offsets -/

variable {n i j i' j' : Nat}

/-- Twice the number of the entries above a row is computed first. -/
theorem two_dvd_above (n i : Nat) : 2 ∣ i * (2 * n - i - 1) := by
  rcases Nat.even_or_odd' i with ⟨k, rfl | rfl⟩
  · exact Dvd.dvd.mul_right (Nat.dvd_mul_right 2 k) _
  · have heven : 2 * n - (2 * k + 1) - 1 = 2 * (n - k - 1) := by omega
    rw [heven]
    exact Dvd.dvd.mul_left (Nat.dvd_mul_right 2 _) _

/-- Entries follow each other as their rows do, and in one row as their columns do. -/
theorem offset_lt_offset_iff (hij : i ≤ j) (hj : j < n) (hij' : i' ≤ j') (hj' : j' < n) :
    offset n i j < offset n i' j' ↔ i < i' ∨ i = i' ∧ j < j' := by
  rcases Nat.lt_trichotomy i i' with hlt | rfl | hgt
  · have hbefore := offset_lt_rowStart hij hj hlt (by omega)
    rw [offset_eq_rowStart_add hij']
    exact iff_of_true (by omega) (Or.inl hlt)
  · rw [offset_eq_rowStart_add hij, offset_eq_rowStart_add hij']
    omega
  · have hbefore := offset_lt_rowStart hij' hj' hgt (by omega)
    rw [offset_eq_rowStart_add hij]
    exact iff_of_false (by omega) (by omega)

/-- Every cell above a row belongs to an entry of one of the rows before. -/
theorem exists_offset {c : Nat} (hi : i ≤ n) (hc : c < rowStart n i) :
    ∃ row column, row ≤ column ∧ column < n ∧ offset n row column = c := by
  induction i with
  | zero => simp [rowStart] at hc
  | succ i ih =>
    rcases Nat.lt_or_ge c (rowStart n i) with habove | hrow
    · exact ih (Nat.le_of_succ_le hi) habove
    · rw [rowStart_succ hi] at hc
      refine ⟨i, i + (c - rowStart n i), Nat.le_add_right _ _, by omega, ?_⟩
      rw [offset_eq_rowStart_add (Nat.le_add_right _ _)]
      omega

/-- Each cell is that of one pair of bits. -/
theorem bijOn_offset (n : Nat) :
    Set.BijOn (fun p : Nat × Nat => offset n p.1 p.2) {p | p.1 ≤ p.2 ∧ p.2 < n}
      (Set.Iio (cells n)) := by
  refine ⟨?_, ?_, ?_⟩
  · rintro ⟨i, j⟩ ⟨hij, hj⟩
    exact offset_lt (Nat.lt_of_le_of_lt hij hj) hj
  · rintro ⟨i, j⟩ ⟨hij, hj⟩ ⟨i', j'⟩ ⟨hij', hj'⟩ hsame
    obtain ⟨rfl, rfl⟩ := offset_injective hij hj hij' hj' hsame
    rfl
  · intro c hc
    rw [Set.mem_Iio, ← rowStart_self] at hc
    obtain ⟨i, j, hij, hj, hplace⟩ := exists_offset (Nat.le_refl n) hc
    exact ⟨(i, j), ⟨hij, hj⟩, hplace⟩

/-- Offsets are computed for pairs of bits, and for nothing else. -/
theorem cell_eq_ite (hfits : n * (n + 1) < 2 ^ 64) (i j : Nat) :
    cell n i j = if i < n ∧ j < n then .ok (offset n i j) else .error (.noEntry i j n) := by
  by_cases hin : i < n ∧ j < n
  · rw [if_pos hin, cell_eq_ok hin.1 hin.2 hfits]
  · rw [if_neg hin]
    exact if_neg hin

/-! ## Writing -/

/-- A write to the entry `(i, j)`. -/
inductive Write (α : Type) where
  | set (i j : Nat) (value : α)
  | add (i j : Nat) (value : α)

variable {α : Type} [Scalar α]

namespace Write

/-- The pair of bits that is written to. -/
def entry : Write α → Sym2 Nat
  | .set i j _ => s(i, j)
  | .add i j _ => s(i, j)

/-- What a write makes of the coefficient of its entry. -/
def change (old : α) : Write α → α
  | .set _ _ value => value
  | .add _ _ value => old + value

def apply (q : Qubo α) : Write α → Except Fault (Qubo α)
  | .set i j value => q.set i j value
  | .add i j value => q.add i j value

/-- Both bits are bits of the QUBO. -/
def InRange (n : Nat) (w : Write α) : Prop := ∀ i ∈ w.entry, i < n

end Write

/-- Makes one write after the other. -/
def writeAll (q : Qubo α) (writes : List (Write α)) : Except Fault (Qubo α) :=
  writes.foldlM Write.apply q

variable {q q' : Qubo α}

/-- What is left in the table by a write to the cell of a pair. -/
theorem Fits.coefficient_write (hfits : q.Fits) {v w : Nat} {c : α} (hv : v < q.size)
    (hw : w < q.size) {entries : Array α}
    (hwrite : Table.write q.entries (offset q.size v w) c = .ok entries) (hi : i < q.size)
    (hj : j < q.size) :
    coefficient { q with entries := entries } i j =
      if s(v, w) = s(i, j) then c else q.coefficient i j := by
  obtain ⟨-, hcoefficient⟩ := hfits.of_write_eq_ok hv hw hwrite
  rcases Nat.le_total i j with hij | hij
  · have hpair : s(v, w) = s(i, j) ↔ i = min v w ∧ j = max v w := by
      rw [Sym2.eq_iff]
      omega
    rw [hcoefficient i j hij hj, if_congr hpair rfl rfl]
  · have hpair : s(v, w) = s(i, j) ↔ j = min v w ∧ i = max v w := by
      rw [Sym2.eq_iff]
      omega
    rw [coefficient_comm, hcoefficient j i hij hi, if_congr hpair rfl rfl, q.coefficient_comm]

/-- A write to a pair of bits can be made, and changes their coefficient only. -/
theorem Fits.apply_eq_ok (hfits : q.Fits) {w : Write α} (hw : w.InRange q.size) :
    ∃ q', w.apply q = .ok q' ∧ q'.size = q.size ∧ q'.Fits ∧
      ∀ i j, i < q.size → j < q.size → q'.coefficient i j =
        if w.entry = s(i, j) then w.change (q.coefficient i j) else q.coefficient i j := by
  have hroom {v w : Nat} (hv : v < q.size) (hw : w < q.size) :
      offset q.size v w < q.entries.size := hfits.cells ▸ offset_lt hv hw
  cases w with
  | set v w value =>
    have hv : v < q.size := hw v (Sym2.mem_mk_left v w)
    have hw : w < q.size := hw w (Sym2.mem_mk_right v w)
    obtain ⟨entries, hwrite⟩ := Table.exists_write (hroom hv hw) value
    refine ⟨{ q with entries }, ?_, rfl, (hfits.of_write_eq_ok hv hw hwrite).1, ?_⟩
    · refine bind_eq_ok_iff.mpr ⟨_, cell_eq_ok hv hw hfits.words, ?_⟩
      exact bind_eq_ok_iff.mpr ⟨entries, hwrite, rfl⟩
    · intro i j hi hj
      exact hfits.coefficient_write hv hw hwrite hi hj
  | add v w value =>
    have hv : v < q.size := hw v (Sym2.mem_mk_left v w)
    have hw : w < q.size := hw w (Sym2.mem_mk_right v w)
    obtain ⟨entries, hwrite⟩ := Table.exists_write (hroom hv hw) (q.coefficient v w + value)
    refine ⟨{ q with entries }, ?_, rfl, (hfits.of_write_eq_ok hv hw hwrite).1, ?_⟩
    · refine bind_eq_ok_iff.mpr ⟨_, cell_eq_ok hv hw hfits.words, ?_⟩
      refine bind_eq_ok_iff.mpr ⟨_, hfits.read_eq_ok hv hw, ?_⟩
      exact bind_eq_ok_iff.mpr ⟨entries, hwrite, rfl⟩
    · intro i j hi hj
      rw [hfits.coefficient_write hv hw hwrite hi hj]
      show (if s(v, w) = s(i, j) then _ else _) = if s(v, w) = s(i, j) then _ else _
      split
      next hsame =>
        -- it is the old coefficient of the pair that was added to
        have hentry : q.coefficient v w = q.coefficient i j := by
          rcases Sym2.eq_iff.mp hsame with ⟨rfl, rfl⟩ | ⟨rfl, rfl⟩
          · rfl
          · exact q.coefficient_comm v w
        rw [hentry]
        rfl
      next => rfl

/-- Writes to pairs of bits can all be made, and each entry holds what those to it have made of it. -/
theorem Fits.writeAll_eq_ok (hfits : q.Fits) {writes : List (Write α)}
    (hwrites : ∀ w ∈ writes, w.InRange q.size) :
    ∃ q', q.writeAll writes = .ok q' ∧ q'.size = q.size ∧ q'.Fits ∧
      ∀ i j, i < q.size → j < q.size → q'.coefficient i j =
        (writes.filter (·.entry = s(i, j))).foldl Write.change (q.coefficient i j) := by
  induction writes generalizing q with
  | nil => exact ⟨q, rfl, rfl, hfits, fun _ _ _ _ => rfl⟩
  | cons w writes ih =>
    rw [List.forall_mem_cons] at hwrites
    obtain ⟨q₁, hfirst, hsize₁, hfits₁, hcoefficient₁⟩ := hfits.apply_eq_ok hwrites.1
    obtain ⟨q', hrest, hsize', hfits', hcoefficient'⟩ := ih hfits₁ (hsize₁ ▸ hwrites.2)
    refine ⟨q', bind_eq_ok_iff.mpr ⟨q₁, hfirst, hrest⟩, hsize'.trans hsize₁, hfits', ?_⟩
    intro i j hi hj
    rw [hcoefficient' i j (hsize₁ ▸ hi) (hsize₁ ▸ hj), hcoefficient₁ i j hi hj]
    by_cases hsame : w.entry = s(i, j)
    · rw [if_pos hsame, List.filter_cons_of_pos (by simpa using hsame), List.foldl_cons]
    · rw [if_neg hsame, List.filter_cons_of_neg (by simpa using hsame)]

/-- There is a QUBO over `n` bits if there can be a table of its cells. -/
theorem exists_zero_iff {n : Nat} (hfits : n * (n + 1) < 2 ^ 64) :
    (∃ q : Qubo α, zero n = .ok q) ↔ n * (n + 1) / 2 * 8 < 2 ^ 63 := by
  have hroom : Table.reserve (n * (n + 1) / 2) 1 = .ok () ↔ n * (n + 1) / 2 * 8 < 2 ^ 63 := by
    rw [Table.reserve_eq_ok_iff, Nat.mul_one]
    exact Iff.rfl
  rw [← hroom]
  constructor
  · rintro ⟨q, h⟩
    obtain ⟨next, hnext, h⟩ := bind_eq_ok_iff.mp h
    obtain ⟨twice, htwice, h⟩ := bind_eq_ok_iff.mp h
    obtain ⟨entries, hentries, -⟩ := bind_eq_ok_iff.mp h
    rw [(Word.mul_eq_ok_iff.mp htwice).2, (Word.add_eq_ok_iff.mp hnext).2] at hentries
    obtain ⟨⟨⟩, hreserved, -⟩ := bind_eq_ok_iff.mp hentries
    exact hreserved
  · intro hreserved
    have hnext : n + 1 < 2 ^ 64 := by nlinarith
    refine ⟨{ size := n, entries := Array.replicate (n * (n + 1) / 2) 0.0 }, ?_⟩
    refine bind_eq_ok_iff.mpr ⟨_, Word.add_eq_ok_iff.mpr ⟨hnext, rfl⟩, ?_⟩
    refine bind_eq_ok_iff.mpr ⟨_, Word.mul_eq_ok_iff.mpr ⟨hfits, rfl⟩, ?_⟩
    exact bind_eq_ok_iff.mpr ⟨_, bind_eq_ok_iff.mpr ⟨(), hreserved, rfl⟩, rfl⟩

/-! ## Result -/

/-- The triangle over `n` bits, when its cells can be counted in 64 bits. Offsets are computed for the
pairs of bits and for nothing else, without leaving the 64-bit numbers and without a remainder; they
number the cells row after row. In a QUBO that is made anew, which can be done when there is room for
the cells, and written to, each entry holds what the writes to it, in their order, make of zero. -/
theorem entries_of_writes (n : Nat) (hfits : n * (n + 1) < 2 ^ 64) :
    (∀ i j, cell n i j =
        if i < n ∧ j < n then .ok (offset n i j) else .error (.noEntry i j n)) ∧
      (∀ i j, 2 ∣ min i j * (2 * n - min i j - 1) ∧ offset n i j = offset n j i) ∧
      Set.BijOn (fun p : Nat × Nat => offset n p.1 p.2) {p | p.1 ≤ p.2 ∧ p.2 < n}
        {c | c < n * (n + 1) / 2} ∧
      (∀ i j i' j', i ≤ j → j < n → i' ≤ j' → j' < n →
        (offset n i j < offset n i' j' ↔ i < i' ∨ i = i' ∧ j < j')) ∧
      (∀ i j, i ≤ j → offset n i j = offset n i i + (j - i)) ∧
      ∀ (α : Type) [Scalar α],
        ((∃ q : Qubo α, zero n = .ok q) ↔ n * (n + 1) / 2 * 8 < 2 ^ 63) ∧
        ∀ q : Qubo α, zero n = .ok q → ∀ writes : List (Write α),
          (∀ w ∈ writes, w.InRange n) → ∃ q', q.writeAll writes = .ok q' ∧
            ∀ i j, i < n → j < n →
              q'.get i j = .ok ((writes.filter (·.entry = s(i, j))).foldl Write.change 0.0) := by
  refine ⟨cell_eq_ite hfits, ?_, bijOn_offset n, ?_, ?_, ?_⟩
  · intro i j
    exact ⟨two_dvd_above n (min i j), offset_comm n i j⟩
  · intro i j i' j' hij hj hij' hj'
    exact offset_lt_offset_iff hij hj hij' hj'
  · intro i j hij
    rw [offset_eq_rowStart_add hij, offset_eq_rowStart_add (Nat.le_refl i), Nat.sub_self,
      Nat.add_zero]
  · intro α _
    refine ⟨exists_zero_iff hfits, ?_⟩
    intro q hzero writes hwrites
    obtain ⟨rfl, hnew, hcoefficient⟩ := of_zero_eq_ok hzero
    obtain ⟨q', hwritten, hsize', hfits', hcoefficient'⟩ := hnew.writeAll_eq_ok hwrites
    refine ⟨q', hwritten, ?_⟩
    intro i j hi hj
    rw [hfits'.get_eq_ok (hsize' ▸ hi) (hsize' ▸ hj), hcoefficient' i j hi hj, hcoefficient i j]

/-- Writes to both names of an entry, and one to another entry in between. -/
def crossed : List (Write Float) := [.set 2 0 1.5, .set 1 1 4.0, .add 0 2 0.5]

theorem inRange_crossed : ∀ w ∈ crossed, w.InRange 3 := by
  simp [crossed, Write.InRange, Write.entry]

theorem entries_of_writes_crossed :
    3 * (3 + 1) < 2 ^ 64 ∧ cell 3 2 0 = .ok 2 ∧ cell 3 0 3 = .error (.noEntry 0 3 3) ∧
    (∀ w ∈ crossed, w.InRange 3) ∧
    ∃ q q', (zero 3 : Except Fault (Qubo Float)) = .ok q ∧ q.writeAll crossed = .ok q' ∧
      q'.get 0 2 = .ok (1.5 + 0.5) ∧ q'.get 0 1 = .ok 0.0 := by
  have hfits : 3 * (3 + 1) < 2 ^ 64 := by decide
  obtain ⟨hcell, -, -, -, -, hwrites⟩ := entries_of_writes 3 hfits
  obtain ⟨hroom, hwrites⟩ := hwrites Float
  obtain ⟨q, hq⟩ := hroom.mpr (by decide)
  obtain ⟨q', hwritten, hread⟩ := hwrites q hq crossed inRange_crossed
  exact ⟨hfits, hcell 2 0, hcell 0 3, inRange_crossed, q, q', hq, hwritten,
    hread 0 2 (by decide) (by decide), hread 0 1 (by decide) (by decide)⟩

end ThermalSearch.Qubo
