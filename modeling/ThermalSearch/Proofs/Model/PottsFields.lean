import ThermalSearch.Proofs.Model.PottsEnergy

/-!
# Fields that share a cell

The fields of a Potts model lie spin after spin in one table, and only the offset of a field is checked.
A write changes one cell (`fieldAt_of_setField`), so what else it changes is a question of which places
share an offset. Among states that there are, none do (`Table.offset_eq_iff`): a write to one of them leaves
every other field alone. A state that is not there may still have an offset in the table, that of a field of
a later spin (`shared_place`), and a write to it goes through and sets that one.
-/

namespace ThermalSearch.Potts

variable {α : Type} {m m' : Potts α} {i s : Nat} {value : α}

/-- A write that returns has changed the cell at its offset only, whatever place that is. -/
theorem fieldAt_of_setField (h : m.setField i s value = .ok m') (k t : Nat) :
    m'.fieldAt k t =
      if k * m.states + t = i * m.states + s then .ok value else m.fieldAt k t := by
  obtain ⟨cell, hcell, h⟩ := bind_eq_ok_iff.mp h
  obtain ⟨field, hwrite, h⟩ := bind_eq_ok_iff.mp h
  cases h
  obtain ⟨hwords, rfl⟩ := fieldCell_eq_ok_iff.mp hcell
  have hread := Table.read_write hwrite
  show (m.fieldCell k t >>= Table.read field) = _
  cases hplace : m.fieldCell k t with
  | error fault =>
    -- an offset beyond 64 bits is no offset that was written
    have hother : k * m.states + t ≠ i * m.states + s := by
      intro hsame
      have hthere := fieldCell_eq_ok_iff.mpr ⟨hsame ▸ hwords, rfl⟩
      cases hplace.symm.trans hthere
    rw [if_neg hother, fieldAt, hplace]
    rfl
  | ok other =>
    obtain ⟨-, rfl⟩ := fieldCell_eq_ok_iff.mp hplace
    rw [fieldAt, hplace]
    exact hread _

/-- A field is set exactly when its offset is one of the table. -/
theorem Fits.exists_setField_iff (h : m.Fits) :
    (∃ m', m.setField i s value = .ok m') ↔ i * m.states + s < m.size * m.states := by
  constructor
  · rintro ⟨m', hset⟩
    obtain ⟨cell, hcell, hset⟩ := bind_eq_ok_iff.mp hset
    obtain ⟨field, hwrite, -⟩ := bind_eq_ok_iff.mp hset
    obtain ⟨-, rfl⟩ := fieldCell_eq_ok_iff.mp hcell
    exact h.field ▸ Table.lt_of_write hwrite
  · intro hcell
    obtain ⟨field, hwrite⟩ := Table.exists_write (h.field.symm ▸ hcell) value
    have hplace := fieldCell_eq_ok_iff.mpr ⟨Nat.lt_trans hcell h.words, rfl⟩
    exact ⟨_, bind_eq_ok_iff.mpr ⟨_, hplace, bind_eq_ok_iff.mpr ⟨field, hwrite, rfl⟩⟩⟩

/-- Every place shares its offset with one whose state is there. -/
theorem shared_place (i s : Nat) :
    (i + s / m.states) * m.states + s % m.states = i * m.states + s := by
  rw [Nat.add_mul, Nat.add_assoc, Nat.div_add_mod']

/-! ## Result -/

/-- A write to a field goes through exactly when its offset is in the table. It then sets the field at
that offset, which is the one asked for if there is such a state, and leaves every other field that there
is, and all couplings, alone. The offset is computed with overflow checks: one that exceeds 64 bits is a
failure, where unchecked arithmetic would wrap around. -/
theorem setField_frame [Scalar α] (m : Potts α) (hm : m.Reachable) (i s : Nat) (value : α) :
    ((∃ m', m.setField i s value = .ok m') ↔ i * m.states + s < m.size * m.states) ∧
    ∀ m', m.setField i s value = .ok m' →
      m'.couplings = m.couplings ∧ m'.states = m.states ∧ m'.fieldAt i s = .ok value ∧
      (s < m.states → ∀ k t, t < m.states → (k, t) ≠ (i, s) → m'.fieldAt k t = m.fieldAt k t) ∧
      (∀ k t, k * m.states + t ≠ i * m.states + s → m'.fieldAt k t = m.fieldAt k t) ∧
      m'.fieldAt (i + s / m.states) (s % m.states) = .ok value := by
  refine ⟨hm.fits.1.exists_setField_iff, ?_⟩
  intro m' hset
  have hfield := fieldAt_of_setField hset
  have hother : ∀ k t, k * m.states + t ≠ i * m.states + s → m'.fieldAt k t = m.fieldAt k t :=
    fun k t hne => (hfield k t).trans (if_neg hne)
  have hkept : m'.couplings = m.couplings ∧ m'.states = m.states := by
    obtain ⟨cell, -, hset⟩ := bind_eq_ok_iff.mp hset
    obtain ⟨field, -, hset⟩ := bind_eq_ok_iff.mp hset
    cases hset
    exact ⟨rfl, rfl⟩
  refine ⟨hkept.1, hkept.2, (hfield i s).trans (if_pos rfl), ?_, hother, ?_⟩
  · intro hs k t ht hne
    refine hother k t (fun hsame => hne ?_)
    rw [Prod.mk.injEq]
    exact (Table.offset_eq_iff ht hs).mp hsame
  · exact (hfield _ _).trans (if_pos (shared_place i s))

/-- The last state of the first spin is next to the first state of the second. -/
theorem setField_frame_neighbour : ∃ m m' : Potts Float, m.Reachable ∧
    m.setField 0 1 5.0 = .ok m' ∧ m'.fieldAt 0 1 = .ok 5.0 ∧ m.fieldAt 1 0 = .ok 3.0 ∧
      m'.fieldAt 1 0 = .ok 3.0 := by
  obtain ⟨start, hstart⟩ : ∃ start : Potts Float, zero 2 2 = .ok start := ⟨_, by rfl⟩
  obtain ⟨m, hm⟩ : ∃ m, start.setField 1 0 3.0 = .ok m := by
    cases hstart
    exact ⟨_, by rfl⟩
  have hstates : m.states = 2 ∧ m.fieldAt 1 0 = .ok 3.0 := by
    cases hstart
    cases hm
    exact ⟨rfl, by rfl⟩
  have hreachable : m.Reachable := .setField (.zero hstart) hm
  obtain ⟨hreturns, hframe⟩ := setField_frame m hreachable 0 1 5.0
  obtain ⟨m', hset⟩ := hreturns.mpr (by
    cases hstart
    cases hm
    decide)
  obtain ⟨-, -, hwritten, hothers, -⟩ := hframe m' hset
  rw [hstates.1] at hothers
  have hkept := hothers (by decide) 1 0 (by decide) (by decide)
  exact ⟨m, m', hreachable, hset, hwritten, hstates.2, hkept.trans hstates.2⟩

/-- Of two states there is no third, and setting its field sets one of the next spin. -/
theorem setField_spills : ∃ m m' : Potts Float, zero 2 2 = .ok m ∧ m.setField 0 2 5.0 = .ok m' ∧
    m.fieldAt 1 0 = .ok 0.0 ∧ m'.fieldAt 1 0 = .ok 5.0 :=
  ⟨_, _, by rfl, by rfl, by rfl, by rfl⟩

end ThermalSearch.Potts
