import Mathlib.Data.Sym.Sym2
import ThermalSearch.Proofs.Model.PottsEnergy
import ThermalSearch.Proofs.Model.SpinModel
import ThermalSearch.Timetable.Encoding

/-!
# Couplings after any sequence of writes

The table of couplings is written in two places at once, and an offset is all that is checked. That is
enough: of the two cells of a pair, one is past the end of the table as soon as one of the spins is not
there (`exists_set_iff`), so that a call with such a pair never returns. Among the writes that do return,
each is to a pair of two different spins, or passed over.

What holds of the table after a sequence of writes (`Records`) is therefore what one would expect of a
function of unordered pairs: it is symmetric, zero on the diagonal, and elsewhere the last value that was
written. One step is shown for the table (`Records.step`) and carried through a sequence once for all
models that keep such a table (`records_of_writes`), be it written by a caller or by a loop.
-/

namespace ThermalSearch

/-! ## Writes -/

/-- A write to a model of spins: to the coupling of two of them, or to a field, wherever it is. -/
inductive SpinWrite (Place α : Type) where
  | coupling (i j : Nat) (value : α)
  | field (place : Place) (value : α)

namespace SpinWrite

variable {Place α : Type}

/-- The value that a write gives to the coupling of a pair, if it is a write to that coupling. -/
def coupling? (i j : Nat) : SpinWrite Place α → Option α
  | .coupling k l value => if s(k, l) = s(i, j) then some value else none
  | .field _ _ => none

/-- The last value that a pair was given; zero when there was none. -/
def lastCoupling [Scalar α] (writes : List (SpinWrite Place α)) (i j : Nat) : α :=
  (writes.filterMap (coupling? i j)).getLast?.getD 0.0

/-- What a write does to the couplings. -/
def applyTo (c : Couplings α) : SpinWrite Place α → Except Fault (Couplings α)
  | .coupling i j value => c.set i j value
  | .field _ _ => .ok c

theorem lastCoupling_comm [Scalar α] (writes : List (SpinWrite Place α)) (i j : Nat) :
    lastCoupling writes i j = lastCoupling writes j i := by
  have hpair : (coupling? i j : SpinWrite Place α → Option α) = coupling? j i := by
    funext w
    cases w with
    | coupling k l value => simp only [coupling?, Sym2.eq_swap (a := i)]
    | field place value => rfl
  unfold lastCoupling
  rw [hpair]

/-- A write to the pair is the last one, and any other write leaves the last one alone. -/
theorem lastCoupling_append [Scalar α] (writes : List (SpinWrite Place α)) (w : SpinWrite Place α)
    (i j : Nat) :
    lastCoupling (writes ++ [w]) i j = (w.coupling? i j).getD (lastCoupling writes i j) := by
  unfold lastCoupling
  rw [List.filterMap_append, List.getLast?_append]
  cases hw : w.coupling? i j <;> simp [hw]

/-- The couplings that are written in a row of a model, after what is written there first. -/
theorem coupling_mem_row {n i j k : Nat} {v : α} {first : List (SpinWrite Place α)} {value : Nat → α}
    (hfirst : ∀ i j v, .coupling i j v ∉ first) :
    .coupling i j v ∈ first ++ (following k n).map (fun l => .coupling k l (value l)) ↔
      i = k ∧ (i < j ∧ j < n) ∧ v = value j := by
  rw [List.mem_append, or_iff_right (hfirst i j v), List.mem_map]
  constructor
  · rintro ⟨l, hl, hwrite⟩
    cases hwrite
    exact ⟨rfl, mem_following.mp hl, rfl⟩
  · rintro ⟨rfl, hpair, rfl⟩
    exact ⟨j, mem_following.mpr hpair, rfl⟩

/-- If a coupling is written from its smaller index only, and a pair always gets the same value, it does
not matter which write was the last. -/
theorem lastCoupling_of_pairs [Scalar α] {n : Nat} {writes : List (SpinWrite Place α)}
    {value : Nat → Nat → α} (hcomm : ∀ i j, value i j = value j i)
    (hmem : ∀ i j v, .coupling i j v ∈ writes ↔ (i < j ∧ j < n) ∧ v = value i j) {i j : Nat}
    (hi : i < n) (hj : j < n) (hij : i ≠ j) : lastCoupling writes i j = value i j := by
  have hwritten : value i j ∈ writes.filterMap (coupling? i j) := by
    rcases Nat.lt_or_gt_of_ne hij with hlt | hgt
    · exact List.mem_filterMap.mpr ⟨_, (hmem i j _).mpr ⟨⟨hlt, hj⟩, rfl⟩, if_pos rfl⟩
    · rw [hcomm]
      exact List.mem_filterMap.mpr ⟨_, (hmem j i _).mpr ⟨⟨hgt, hi⟩, rfl⟩, if_pos Sym2.eq_swap⟩
  have hsame : ∀ v ∈ writes.filterMap (coupling? i j), v = value i j := by
    intro v hv
    obtain ⟨w, hw, hvalue⟩ := List.mem_filterMap.mp hv
    cases w with
    | field place value => cases hvalue
    | coupling k l given =>
      obtain ⟨hpair, hgiven⟩ := Option.ite_none_right_eq_some.mp hvalue
      rw [← Option.some.inj hgiven, ((hmem k l given).mp hw).2]
      rcases Sym2.eq_iff.mp hpair with ⟨rfl, rfl⟩ | ⟨rfl, rfl⟩
      · rfl
      · exact hcomm k l
  unfold lastCoupling
  rw [List.getLast?_eq_some_getLast (List.ne_nil_of_mem hwritten), Option.getD_some]
  exact hsame _ (List.getLast_mem (List.ne_nil_of_mem hwritten))

end SpinWrite

/-- What one expects of the couplings of `n` spins after some writes that have all returned. -/
structure IsCoupledBy {Place α : Type} [Scalar α] (n : Nat) (writes : List (SpinWrite Place α))
    (coupling : Nat → Nat → Except Fault α) : Prop where
  symmetric : ∀ i j, i < n → j < n → coupling i j = coupling j i
  diagonal : ∀ i < n, coupling i i = .ok 0.0
  spins : ∀ i j value, .coupling i j value ∈ writes → i ≠ j → i < n ∧ j < n
  last : ∀ i j, i < n → j < n → i ≠ j → coupling i j = .ok (SpinWrite.lastCoupling writes i j)

/-! ## The table -/

namespace Couplings

variable {Place α : Type} {c c' : Couplings α} {i j : Nat}

/-- With two different spins one of which is not there, one of the two cells is not there. -/
theorem Fits.of_set_lt (h : c.Fits) {value : α} (hij : i ≠ j) (hset : c.set i j value = .ok c') :
    i < c.size ∧ j < c.size := by
  -- a row that starts past the end has no cell in the table
  have hcell : ∀ {k l v}, c.cell k l = .ok v → v < c.size * c.size → k < c.size := by
    intro k l v hv hlt
    obtain ⟨-, rfl⟩ := cell_eq_ok_iff.mp hv
    exact Nat.lt_of_mul_lt_mul_right (Nat.lt_of_le_of_lt (Nat.le_add_right _ l) hlt)
  unfold set at hset
  rw [if_neg hij] at hset
  obtain ⟨first, hfirst, hset⟩ := bind_eq_ok_iff.mp hset
  obtain ⟨half, hhalf, hset⟩ := bind_eq_ok_iff.mp hset
  obtain ⟨second, hsecond, hset⟩ := bind_eq_ok_iff.mp hset
  obtain ⟨cells, hcells, -⟩ := bind_eq_ok_iff.mp hset
  have hsize : half.size = c.size * c.size := (Table.size_write hhalf).trans h.cells
  exact ⟨hcell hfirst (h.cells ▸ Table.lt_of_write hhalf),
    hcell hsecond (hsize ▸ Table.lt_of_write hcells)⟩

variable [Scalar α]

/-- A coupling is set exactly when both spins are there, or when there is nothing to set. -/
theorem Fits.exists_set_iff (h : c.Fits) (value : α) :
    (∃ c', c.set i j value = .ok c') ↔ i = j ∨ i < c.size ∧ j < c.size := by
  by_cases hij : i = j
  · exact iff_of_true ⟨c, if_pos hij⟩ (Or.inl hij)
  · constructor
    · rintro ⟨c', hset⟩
      exact Or.inr (h.of_set_lt hij hset)
    · rintro (hsame | ⟨hi, hj⟩)
      · exact absurd hsame hij
      · obtain ⟨c', hset, -⟩ := h.set_eq_ok hi hj hij value
        exact ⟨c', hset⟩

theorem entry_of_fill {n : Nat} (h : fill n (0.0 : α) = .ok c) (i j : Nat) : c.entry i j = 0.0 := by
  obtain ⟨cells, -, h⟩ := bind_eq_ok_iff.mp h
  obtain ⟨table, htable, h⟩ := bind_eq_ok_iff.mp h
  obtain ⟨⟨⟩, -, hfill⟩ := bind_eq_ok_iff.mp htable
  cases h
  cases hfill
  show (Array.replicate cells 0.0).getD (i * n + j) 0.0 = 0.0
  rw [Array.getD_eq_getD_getElem?, Array.getElem?_replicate]
  split <;> rfl

variable {n : Nat} {writes : List (SpinWrite Place α)} {w : SpinWrite Place α}

/-- All that a write which returns can have done. -/
theorem Fits.of_applyTo (h : c.Fits) (happly : w.applyTo c = .ok c') :
    c'.size = c.size ∧ c'.Fits ∧
      (∀ i j value, w = .coupling i j value → i ≠ j → i < c.size ∧ j < c.size) ∧
      (∀ i < c.size, c'.entry i i = c.entry i i) ∧
      ∀ i j, i < c.size → j < c.size → i ≠ j →
        c'.entry i j = (w.coupling? i j).getD (c.entry i j) := by
  cases w with
  | field place value =>
    cases happly
    refine ⟨rfl, h, ?_, fun _ _ => rfl, fun _ _ _ _ _ => rfl⟩
    intro i j value hw
    cases hw
  | coupling k l value =>
    have hset : c.set k l value = .ok c' := happly
    by_cases hkl : k = l
    · -- the write is passed over, and no pair of two spins is meant by it
      unfold set at hset
      rw [if_pos hkl] at hset
      cases hset
      refine ⟨rfl, h, ?_, fun _ _ => rfl, ?_⟩
      · intro i j value' hw hij
        cases hw
        exact absurd hkl hij
      · intro i j _ _ hij
        have hpair : ¬ s(k, l) = s(i, j) := by
          rw [Sym2.eq_iff]
          omega
        rw [SpinWrite.coupling?, if_neg hpair, Option.getD_none]
    · obtain ⟨hk, hl⟩ := h.of_set_lt hkl hset
      obtain ⟨c₁, hset₁, hsize, hfits, hentry⟩ := h.set_eq_ok hk hl hkl value
      cases hset.symm.trans hset₁
      refine ⟨hsize, hfits, ?_, ?_, ?_⟩
      · intro i j value' hw _
        cases hw
        exact ⟨hk, hl⟩
      · intro i hi
        have hside : ¬((i = k ∧ i = l) ∨ (i = l ∧ i = k)) := by omega
        rw [hentry i i hi hi, if_neg hside]
      · intro i j hi hj _
        have hpair : s(k, l) = s(i, j) ↔ (i = k ∧ j = l) ∨ (i = l ∧ j = k) := by
          rw [Sym2.eq_iff]
          omega
        rw [hentry i j hi hj, SpinWrite.coupling?, if_congr hpair rfl rfl]
        split <;> rfl

/-- The table holds what the writes have left in it. -/
structure Records (c : Couplings α) (n : Nat) (writes : List (SpinWrite Place α)) : Prop where
  fits : c.Fits
  size : c.size = n
  spins : ∀ i j value, .coupling i j value ∈ writes → i ≠ j → i < n ∧ j < n
  diagonal : ∀ i < n, c.entry i i = 0.0
  last : ∀ i j, i < n → j < n → i ≠ j → c.entry i j = SpinWrite.lastCoupling writes i j

theorem records_fill (h : fill n (0.0 : α) = .ok c) :
    c.Records n ([] : List (SpinWrite Place α)) := by
  obtain ⟨hsize, hfits⟩ := of_fill_eq_ok h
  exact ⟨hfits, hsize, fun _ _ _ hnone => absurd hnone List.not_mem_nil,
    fun i _ => entry_of_fill h i i, fun i j _ _ _ => entry_of_fill h i j⟩

/-- One more write that returns. -/
theorem Records.step (h : c.Records n writes) (happly : w.applyTo c = .ok c') :
    c'.Records n (writes ++ [w]) := by
  obtain ⟨hfits, rfl, hspins, hdiagonal, hlast⟩ := h
  obtain ⟨hsize, hfits', hwrite, hdiagonal', hentry⟩ := hfits.of_applyTo happly
  refine ⟨hfits', hsize, ?_, ?_, ?_⟩
  · intro i j value hmem hij
    rcases List.mem_append.mp hmem with hmem | hmem
    · exact hspins i j value hmem hij
    · exact hwrite i j value (List.mem_singleton.mp hmem).symm hij
  · intro i hi
    rw [hdiagonal' i hi, hdiagonal i hi]
  · intro i j hi hj hij
    rw [hentry i j hi hj hij, hlast i j hi hj hij, SpinWrite.lastCoupling_append]

/-- Any number of writes to a model that keeps its couplings in such a table. -/
theorem records_of_writes {M : Type} {table : M → Couplings α}
    {apply : M → SpinWrite Place α → Except Fault M}
    (happly : ∀ m w m', apply m w = .ok m' → w.applyTo (table m) = .ok (table m')) {start m : M}
    (hstart : fill n (0.0 : α) = .ok (table start)) (h : writes.foldlM apply start = .ok m) :
    (table m).Records n writes := by
  refine foldlM_seen (fun seen m => (table m).Records n seen) ?_ (records_fill hstart) h
  intro seen w m m' _ hm hpass
  exact hm.step (happly m w m' hpass)

theorem Records.entry_comm (h : c.Records n writes) (hi : i < n) (hj : j < n) :
    c.entry i j = c.entry j i := by
  by_cases hij : i = j
  · rw [hij]
  · rw [h.last i j hi hj hij, h.last j i hj hi (Ne.symm hij), SpinWrite.lastCoupling_comm]

theorem Records.isCoupledBy (h : c.Records n writes) : IsCoupledBy n writes c.get := by
  have hget : ∀ i j, i < n → j < n → c.get i j = .ok (c.entry i j) :=
    fun i j hi hj => h.fits.get_eq_ok (h.size ▸ hi) (h.size ▸ hj)
  refine ⟨?_, ?_, h.spins, ?_⟩
  · intro i j hi hj
    rw [hget i j hi hj, hget j i hj hi, h.entry_comm hi hj]
  · intro i hi
    rw [hget i i hi hi, h.diagonal i hi]
  · intro i j hi hj hij
    rw [hget i j hi hj, h.last i j hi hj hij]

end Couplings

/-! ## Models -/

section

variable {α : Type}

namespace Ising

def apply (m : Ising α) : SpinWrite Nat α → Except Fault (Ising α)
  | .coupling i j value => m.setCoupling i j value
  | .field i value => m.setField i value

/-- Makes one write after the other. -/
def writeAll (m : Ising α) (writes : List (SpinWrite Nat α)) : Except Fault (Ising α) :=
  writes.foldlM apply m

theorem applyTo_couplings {m m' : Ising α} {w : SpinWrite Nat α} (h : m.apply w = .ok m') :
    w.applyTo m.couplings = .ok m'.couplings := by
  cases w with
  | coupling i j value =>
    obtain ⟨c, hset, h⟩ := bind_eq_ok_iff.mp h
    cases h
    exact hset
  | field i value =>
    obtain ⟨field, -, h⟩ := bind_eq_ok_iff.mp h
    cases h
    rfl

end Ising

namespace Potts

/-- A field is at a spin and a state. -/
def apply (m : Potts α) : SpinWrite (Nat × Nat) α → Except Fault (Potts α)
  | .coupling i j value => m.setCoupling i j value
  | .field (i, s) value => m.setField i s value

/-- Makes one write after the other. -/
def writeAll (m : Potts α) (writes : List (SpinWrite (Nat × Nat) α)) : Except Fault (Potts α) :=
  writes.foldlM apply m

theorem applyTo_couplings {m m' : Potts α} {w : SpinWrite (Nat × Nat) α} (h : m.apply w = .ok m') :
    w.applyTo m.couplings = .ok m'.couplings := by
  cases w with
  | coupling i j value =>
    obtain ⟨c, hset, h⟩ := bind_eq_ok_iff.mp h
    cases h
    exact hset
  | field place value =>
    obtain ⟨cell, -, h⟩ := bind_eq_ok_iff.mp h
    obtain ⟨field, -, h⟩ := bind_eq_ok_iff.mp h
    cases h
    rfl

end Potts

variable [Scalar α] {n states : Nat}

theorem Ising.records_of_writeAll {start m : Ising α} {writes : List (SpinWrite Nat α)}
    (hstart : zero n = .ok start) (h : start.writeAll writes = .ok m) :
    m.couplings.Records n writes := by
  obtain ⟨c, hc, hstart⟩ := bind_eq_ok_iff.mp hstart
  obtain ⟨field, -, hstart⟩ := bind_eq_ok_iff.mp hstart
  cases hstart
  exact Couplings.records_of_writes (fun _ _ _ => applyTo_couplings) hc h

theorem Potts.records_of_writeAll {start m : Potts α} {writes : List (SpinWrite (Nat × Nat) α)}
    (hstart : zero n states = .ok start) (h : start.writeAll writes = .ok m) :
    m.couplings.Records n writes := by
  obtain ⟨⟨⟩, -, hstart⟩ := bind_eq_ok_iff.mp hstart
  obtain ⟨c, hc, hstart⟩ := bind_eq_ok_iff.mp hstart
  obtain ⟨cells, -, hstart⟩ := bind_eq_ok_iff.mp hstart
  obtain ⟨field, -, hstart⟩ := bind_eq_ok_iff.mp hstart
  cases hstart
  exact Couplings.records_of_writes (fun _ _ _ => applyTo_couplings) (liftFault_eq_ok_iff.mp hc) h

/-! ## Models that are built -/

namespace Qubo

/-- What the spin model of a QUBO is written by: row after row, the field and then the couplings with
the later spins. -/
def spinWrites (q : Qubo α) : List (SpinWrite Nat α) :=
  (List.range q.size).flatMap fun i =>
    .field i (q.spinField i) ::
      (following i q.size).map fun j => .coupling i j (q.spinCoupling i j)

variable {q : Qubo α} {m : Ising α}

theorem writeAll_of_toIsing (hfits : q.Fits) (h : q.toIsing = .ok m) :
    ∃ start, Ising.zero q.size = .ok start ∧ start.writeAll q.spinWrites = .ok m := by
  unfold toIsing at h
  obtain ⟨start, hstart, h⟩ := bind_eq_ok_iff.mp h
  refine ⟨start, hstart, foldlM_flatMap ?_ h⟩
  intro i hi m m' h
  have hi' : i < q.size := List.mem_range.mp hi
  obtain ⟨field, hfield, h⟩ := bind_eq_ok_iff.mp h
  cases (isingField_eq_ok hfits hi').symm.trans hfield
  obtain ⟨m₁, hset, h⟩ := bind_eq_ok_iff.mp h
  rw [List.foldlM_cons]
  refine bind_eq_ok_iff.mpr ⟨m₁, hset, foldlM_map ?_ h⟩
  intro j hj m m' h
  obtain ⟨c, hc, h⟩ := bind_eq_ok_iff.mp h
  cases (hfits.get_eq_ok hi' (mem_following.mp hj).2).symm.trans hc
  exact h

theorem mem_spinWrites {i j : Nat} {value : α} :
    .coupling i j value ∈ q.spinWrites ↔ (i < j ∧ j < q.size) ∧ value = q.spinCoupling i j := by
  have hfirst : ∀ k i j v, .coupling i j v ∉ [SpinWrite.field k (q.spinField k)] := by simp
  unfold spinWrites
  rw [List.mem_flatMap]
  constructor
  · rintro ⟨k, -, hwrite⟩
    obtain ⟨rfl, hpair⟩ := (SpinWrite.coupling_mem_row (hfirst k)).mp hwrite
    exact hpair
  · rintro ⟨⟨hij, hj⟩, hvalue⟩
    refine ⟨i, List.mem_range.mpr (Nat.lt_trans hij hj), ?_⟩
    exact (SpinWrite.coupling_mem_row (hfirst i)).mpr ⟨rfl, ⟨hij, hj⟩, hvalue⟩

end Qubo

namespace Timetable

/-- What the model of a choice of rooms is written by: event after event, a field for each room and then
the couplings with the later events. -/
def roomWrites (events : List (Event α)) (rooms : List Room) (penalty : α) :
    List (SpinWrite (Nat × Nat) α) :=
  events.zipIdx.flatMap fun (event, index) =>
    (rooms.zipIdx.map fun (room, r) => .field (index, r) (roomField penalty event room r)) ++
      (following index events.length).map fun other => .coupling index other (-penalty)

variable {events : List (Event α)} {rooms : List Room} {penalty : α} {m : Potts α}

theorem writeAll_of_toPotts (h : toPotts events rooms penalty = .ok m) :
    ∃ start, Potts.zero events.length rooms.length = .ok start ∧
      start.writeAll (roomWrites events rooms penalty) = .ok m := by
  unfold toPotts at h
  rw [check_eq_ok_iff, check_eq_ok_iff] at h
  obtain ⟨-, -, h⟩ := h
  obtain ⟨start, hstart, h⟩ := bind_eq_ok_iff.mp h
  refine ⟨start, hstart, foldlM_flatMap ?_ h⟩
  rintro ⟨event, index⟩ - m m' h
  obtain ⟨m₁, hfields, hcouplings⟩ := bind_eq_ok_iff.mp h
  rw [List.foldlM_append]
  refine bind_eq_ok_iff.mpr ⟨m₁, foldlM_map ?_ hfields, foldlM_map ?_ (liftFault_eq_ok_iff.mp hcouplings)⟩
  · rintro ⟨room, r⟩ - m m' h
    rw [check_eq_ok_iff] at h
    exact liftFault_eq_ok_iff.mp h.2
  · intro other _ m m' h
    exact h

theorem mem_roomWrites {i j : Nat} {value : α} :
    .coupling i j value ∈ roomWrites events rooms penalty ↔
      (i < j ∧ j < events.length) ∧ value = -penalty := by
  unfold roomWrites
  rw [List.mem_flatMap]
  constructor
  · rintro ⟨⟨event, k⟩, -, hwrite⟩
    exact ((SpinWrite.coupling_mem_row (by simp)).mp hwrite).2
  · rintro ⟨⟨hij, hj⟩, hvalue⟩
    have hi : i < events.length := Nat.lt_trans hij hj
    refine ⟨(events[i], i), List.mk_mem_zipIdx_iff_getElem?.mpr (List.getElem?_eq_getElem hi), ?_⟩
    exact (SpinWrite.coupling_mem_row (by simp)).mpr ⟨rfl, ⟨hij, hj⟩, hvalue⟩

end Timetable

/-! ## Result -/

/-- A model that a caller has written to, in any way that did not fail, has symmetric couplings without a
diagonal, each of them the last one that was written; and the next coupling can be written exactly when
both spins are there. The same holds of the models that are made of a QUBO and of a choice of rooms.
Offsets are computed with overflow checks here: one that exceeds 64 bits is a failure, where unchecked
arithmetic would wrap around and might reach a cell. -/
theorem couplings_of_writes (α : Type) [Scalar α] :
    (∀ (n : Nat) (start m : Ising α) (writes : List (SpinWrite Nat α)),
      Ising.zero n = .ok start → start.writeAll writes = .ok m →
        m.size = n ∧ IsCoupledBy n writes m.coupling ∧
          ∀ i j value, (∃ m', m.setCoupling i j value = .ok m') ↔ i = j ∨ i < n ∧ j < n) ∧
    (∀ (n states : Nat) (start m : Potts α) (writes : List (SpinWrite (Nat × Nat) α)),
      Potts.zero n states = .ok start → start.writeAll writes = .ok m →
        m.size = n ∧ IsCoupledBy n writes m.coupling ∧
          ∀ i j value, (∃ m', m.setCoupling i j value = .ok m') ↔ i = j ∨ i < n ∧ j < n) ∧
    (∀ (q : Qubo α) (m : Ising α), q.Reachable → q.toIsing = .ok m →
      IsCoupledBy q.size q.spinWrites m.coupling ∧
        ∀ i j, i < q.size → j < q.size → i ≠ j →
          ∃ c, q.get i j = .ok c ∧ m.coupling i j = .ok (-c / 4.0)) ∧
    ∀ (events : List (Timetable.Event α)) (rooms : List Timetable.Room) (penalty : α) (m : Potts α),
      Timetable.toPotts events rooms penalty = .ok m →
        IsCoupledBy events.length (Timetable.roomWrites events rooms penalty) m.coupling ∧
          ∀ i j, i < events.length → j < events.length → i ≠ j →
            m.coupling i j = .ok (-penalty) := by
  refine ⟨?_, ?_, ?_, ?_⟩
  · intro n start m writes hstart h
    have hrecords := Ising.records_of_writeAll hstart h
    refine ⟨hrecords.size, hrecords.isCoupledBy, fun i j value => ?_⟩
    rw [← hrecords.size, ← hrecords.fits.exists_set_iff value]
    exact exists_bind_eq_ok_iff
  · intro n states start m writes hstart h
    have hrecords := Potts.records_of_writeAll hstart h
    refine ⟨hrecords.size, hrecords.isCoupledBy, fun i j value => ?_⟩
    rw [← hrecords.size, ← hrecords.fits.exists_set_iff value]
    exact exists_bind_eq_ok_iff
  · intro q m hq h
    obtain ⟨start, hstart, hwrites⟩ := Qubo.writeAll_of_toIsing hq.fits h
    have hcoupled := (Ising.records_of_writeAll hstart hwrites).isCoupledBy
    refine ⟨hcoupled, fun i j hi hj hij => ⟨_, hq.fits.get_eq_ok hi hj, ?_⟩⟩
    have hcomm : ∀ i j, q.spinCoupling i j = q.spinCoupling j i := by
      intro i j
      rw [Qubo.spinCoupling, Qubo.coefficient_comm, Qubo.spinCoupling]
    have hlast := hcoupled.last i j hi hj hij
    rw [SpinWrite.lastCoupling_of_pairs hcomm (fun _ _ _ => Qubo.mem_spinWrites) hi hj hij] at hlast
    exact hlast
  · intro events rooms penalty m h
    obtain ⟨start, hstart, hwrites⟩ := Timetable.writeAll_of_toPotts h
    have hcoupled := (Potts.records_of_writeAll hstart hwrites).isCoupledBy
    refine ⟨hcoupled, fun i j hi hj hij => ?_⟩
    have hlast := hcoupled.last i j hi hj hij
    rw [SpinWrite.lastCoupling_of_pairs (fun _ _ => rfl) (fun _ _ _ => Timetable.mem_roomWrites) hi hj
      hij] at hlast
    exact hlast

end

/-- A pair that is written from both sides, a spin with itself, and a pair that is left out. -/
def crossedWrites {Place : Type} (place : Place) : List (SpinWrite Place Float) :=
  [.coupling 0 2 1.5, .field place 0.5, .coupling 1 1 9.0, .coupling 2 0 2.5]

/-- The later value stands on both sides, and the spin is still not coupled to itself. -/
theorem couplings_of_writes_crossed :
    (∃ start m : Ising Float, Ising.zero 3 = .ok start ∧ start.writeAll (crossedWrites 1) = .ok m ∧
      (m.coupling 0 2 = .ok 2.5 ∧ m.coupling 2 0 = .ok 2.5 ∧ m.coupling 1 1 = .ok 0.0 ∧
        m.coupling 0 1 = .ok 0.0) ∧ ¬ ∃ m', m.setCoupling 1 3 1.0 = .ok m') ∧
    (∃ start m : Potts Float, Potts.zero 3 2 = .ok start ∧
      start.writeAll (crossedWrites (1, 1)) = .ok m ∧
      (m.coupling 0 2 = .ok 2.5 ∧ m.coupling 2 0 = .ok 2.5 ∧ m.coupling 1 1 = .ok 0.0 ∧
        m.coupling 0 1 = .ok 0.0) ∧ ¬ ∃ m', m.setCoupling 1 3 1.0 = .ok m') ∧
    (∃ (q : Qubo Float) (m : Ising Float), q.Reachable ∧ q.toIsing = .ok m ∧ q.get 1 0 = .ok 6.0 ∧
      m.coupling 1 0 = .ok (-6.0 / 4.0) ∧ m.coupling 1 1 = .ok 0.0) ∧
    ∃ m : Potts Float, Timetable.toPotts [⟨3, []⟩, ⟨4, []⟩] [⟨5⟩] 0.5 = .ok m ∧
      m.coupling 1 0 = .ok (-0.5) ∧ m.coupling 1 1 = .ok 0.0 := by
  obtain ⟨hising, hpotts, hqubo, hrooms⟩ := couplings_of_writes Float
  have hvalues : ∀ {Place : Type} {place : Place} {coupling : Nat → Nat → Except Fault Float},
      IsCoupledBy 3 (crossedWrites place) coupling →
        coupling 0 2 = .ok 2.5 ∧ coupling 2 0 = .ok 2.5 ∧ coupling 1 1 = .ok 0.0 ∧
          coupling 0 1 = .ok 0.0 := fun h =>
    ⟨h.last 0 2 (by decide) (by decide) (by decide), h.last 2 0 (by decide) (by decide) (by decide),
      h.diagonal 1 (by decide), h.last 0 1 (by decide) (by decide) (by decide)⟩
  refine ⟨?_, ?_, ?_, ?_⟩
  · obtain ⟨start, hstart⟩ : ∃ start : Ising Float, Ising.zero 3 = .ok start := ⟨_, by rfl⟩
    obtain ⟨m, hm⟩ : ∃ m, start.writeAll (crossedWrites 1) = .ok m := by
      cases hstart
      exact ⟨_, by rfl⟩
    obtain ⟨-, hcoupled, hnext⟩ := hising 3 start m _ hstart hm
    refine ⟨start, m, hstart, hm, hvalues hcoupled, ?_⟩
    rw [hnext]
    decide
  · obtain ⟨start, hstart⟩ : ∃ start : Potts Float, Potts.zero 3 2 = .ok start := ⟨_, by rfl⟩
    obtain ⟨m, hm⟩ : ∃ m, start.writeAll (crossedWrites (1, 1)) = .ok m := by
      cases hstart
      exact ⟨_, by rfl⟩
    obtain ⟨-, hcoupled, hnext⟩ := hpotts 3 2 start m _ hstart hm
    refine ⟨start, m, hstart, hm, hvalues hcoupled, ?_⟩
    rw [hnext]
    decide
  · obtain ⟨blank, hblank⟩ : ∃ q : Qubo Float, Qubo.zero 2 = .ok q := ⟨_, by rfl⟩
    obtain ⟨q, hq⟩ : ∃ q, blank.set 0 1 6.0 = .ok q := by
      cases hblank
      exact ⟨_, by rfl⟩
    have hreachable : q.Reachable := .set (.zero hblank) hq
    obtain ⟨m, hm⟩ : ∃ m, q.toIsing = .ok m := by
      cases hblank
      cases hq
      exact ⟨_, by rfl⟩
    have hget : q.size = 2 ∧ q.get 1 0 = .ok 6.0 := by
      cases hblank
      cases hq
      exact ⟨rfl, by rfl⟩
    obtain ⟨hcoupled, hcoupling⟩ := hqubo q m hreachable hm
    rw [hget.1] at hcoupled hcoupling
    obtain ⟨c, hc, hvalue⟩ := hcoupling 1 0 (by decide) (by decide) (by decide)
    cases hget.2.symm.trans hc
    exact ⟨q, m, hreachable, hm, hget.2, hvalue, hcoupled.diagonal 1 (by decide)⟩
  · obtain ⟨m, hm⟩ : ∃ m : Potts Float,
        Timetable.toPotts [⟨3, []⟩, ⟨4, []⟩] [⟨5⟩] 0.5 = .ok m := ⟨_, by rfl⟩
    obtain ⟨hcoupled, hcoupling⟩ := hrooms _ _ _ m hm
    exact ⟨m, hm, hcoupling 1 0 (by decide) (by decide) (by decide),
      hcoupled.diagonal 1 (by decide)⟩

end ThermalSearch
