import ThermalSearch.Proofs.Model.QuboEnergy
import ThermalSearch.Timetable.Layout

/-!
# Counting the bits of a layout

Indices and counts of a layout as plain numbers, and that the layout computes them: the bit of an
event at a place, the bits of an event, and the events at a place.
-/

namespace ThermalSearch.Timetable.Layout

/-- How many bits there are. -/
def total (l : Layout) : Nat := l.events * l.rooms * l.slots

/-- How many bits an event has. -/
def width (l : Layout) : Nat := l.rooms * l.slots

/-- The bit of an event at a place. -/
def index (l : Layout) (event room slot : Nat) : Nat := (event * l.rooms + room) * l.slots + slot

/-- The bits of an event. -/
def block (l : Layout) (event : Nat) : List Nat := List.range' (event * l.width) l.width

/-- How many bits of an event are set. -/
def load (l : Layout) (x : Bits) (event : Nat) : Nat := (l.block event).countP x.holds

/-- How many events are at a place. -/
def crowd (l : Layout) (x : Bits) (p : Place) : Nat :=
  (List.range l.events).countP fun event => x.holds (l.index event p.room p.slot)

/-- The number of bits can be computed. -/
structure Fits (l : Layout) : Prop where
  rows : l.events * l.rooms < 2 ^ 64
  total : l.total < 2 ^ 64

variable {l : Layout} {x : Bits} {event room slot n : Nat}

theorem size_eq_ok_iff : l.size = .ok n ↔ l.Fits ∧ n = l.total := by
  unfold size
  simp only [bind_eq_ok_iff, Word.mul_eq_ok_iff]
  constructor
  · rintro ⟨rows, ⟨hrows, rfl⟩, htotal, rfl⟩
    exact ⟨⟨hrows, htotal⟩, rfl⟩
  · rintro ⟨hfits, rfl⟩
    exact ⟨_, ⟨hfits.rows, rfl⟩, hfits.total, rfl⟩

/-! ## Indices -/

theorem total_eq (l : Layout) : l.total = l.events * l.width := Nat.mul_assoc _ _ _

theorem index_eq (l : Layout) (event room slot : Nat) :
    l.index event room slot = event * l.width + (room * l.slots + slot) := by
  unfold index width
  ring

theorem index_lt (he : event < l.events) (hr : room < l.rooms) (ht : slot < l.slots) :
    l.index event room slot < l.total := Table.offset_lt (Table.offset_lt he hr) ht

theorem lt_total_of_mem_block {v : Nat} (he : event < l.events) (hv : v ∈ l.block event) :
    v < l.total := by
  rcases List.mem_range'_1.mp hv with ⟨hstart, hstop⟩
  have hlast : event * l.width + (v - event * l.width) < l.events * l.width :=
    Table.offset_lt he (by omega)
  rw [total_eq]
  omega

/-- An event with a bit that is set has a place. -/
theorem exists_place_of_load_pos (h : 0 < l.load x event) :
    ∃ room < l.rooms, ∃ slot < l.slots, x.holds (l.index event room slot) := by
  obtain ⟨v, hv, hholds⟩ := List.countP_pos_iff.mp h
  obtain ⟨hstart, hstop⟩ := List.mem_range'_1.mp hv
  -- the place of the bit within its block
  obtain ⟨k, rfl⟩ := Nat.exists_eq_add_of_le hstart
  have hk : k < l.rooms * l.slots := Nat.lt_of_add_lt_add_left hstop
  have hslots : 0 < l.slots := Nat.pos_of_mul_pos_left (Nat.zero_lt_of_lt hk)
  refine ⟨k / l.slots, Nat.div_lt_of_lt_mul (Nat.mul_comm _ _ ▸ hk), k % l.slots,
    Nat.mod_lt k hslots, ?_⟩
  rw [index_eq, Nat.div_add_mod']
  exact hholds

theorem mem_places {p : Place} : p ∈ l.places ↔ p.room < l.rooms ∧ p.slot < l.slots := by
  unfold places
  simp only [List.mem_flatMap, List.mem_map, List.mem_range]
  constructor
  · rintro ⟨room, hroom, slot, hslot, rfl⟩
    exact ⟨hroom, hslot⟩
  · rintro ⟨hroom, hslot⟩
    exact ⟨p.room, hroom, p.slot, hslot, rfl⟩

/-- A bit that is computed is the right one. -/
theorem of_bit_eq_ok {v : Nat} (h : l.bit event room slot = .ok v) :
    v = l.index event room slot := by
  unfold bit at h
  simp only [bind_eq_ok_iff, Word.add_eq_ok_iff, Word.mul_eq_ok_iff] at h
  rcases h with ⟨_, ⟨-, rfl⟩, _, ⟨-, rfl⟩, _, ⟨-, rfl⟩, -, rfl⟩
  rfl

theorem bit_eq_ok (hfits : l.Fits) (he : event < l.events) (hr : room < l.rooms)
    (ht : slot < l.slots) : l.bit event room slot = .ok (l.index event room slot) := by
  have hrow : event * l.rooms + room < 2 ^ 64 :=
    Nat.lt_trans (Table.offset_lt he hr) hfits.rows
  have hbit : (event * l.rooms + room) * l.slots + slot < 2 ^ 64 :=
    Nat.lt_trans (index_lt he hr ht) hfits.total
  have hevent : event * l.rooms < 2 ^ 64 := Nat.lt_of_le_of_lt (Nat.le_add_right _ _) hrow
  have hplace : (event * l.rooms + room) * l.slots < 2 ^ 64 :=
    Nat.lt_of_le_of_lt (Nat.le_add_right _ _) hbit
  unfold bit
  simp only [bind_eq_ok_iff, Word.add_eq_ok_iff, Word.mul_eq_ok_iff]
  exact ⟨_, ⟨hevent, rfl⟩, _, ⟨hrow, rfl⟩, _, ⟨hplace, rfl⟩, hbit, rfl⟩

/-- A range that is computed is that of the event's bits. -/
theorem of_eventRange_eq_ok {start stop : Nat} (h : l.eventRange event = .ok (start, stop)) :
    start = event * l.width ∧ stop = event * l.width + l.width := by
  unfold eventRange at h
  simp only [bind_eq_ok_iff, Word.add_eq_ok_iff, Word.mul_eq_ok_iff] at h
  rcases h with ⟨_, ⟨-, rfl⟩, _, ⟨-, rfl⟩, _, ⟨-, rfl⟩, _, ⟨-, rfl⟩, h⟩
  cases h
  exact ⟨rfl, Nat.succ_mul _ _⟩

/-- There are no more events than bits, if there are bits at all. -/
theorem Fits.events_lt (hfits : l.Fits) (hbits : 0 < l.total) : l.events < 2 ^ 64 := by
  have htotal := hfits.total
  rw [total_eq] at hbits htotal
  exact Nat.lt_of_le_of_lt (Nat.le_mul_of_pos_right _ (Nat.pos_of_mul_pos_left hbits)) htotal

theorem eventRange_eq_ok (hfits : l.Fits) (hevents : l.events < 2 ^ 64) (he : event < l.events) :
    l.eventRange event = .ok (event * l.width, event * l.width + l.width) := by
  have htotal := hfits.total
  rw [total_eq] at htotal
  -- nothing that is computed on the way exceeds the number of bits
  have hwidth : l.width ≤ l.events * l.width := Nat.le_mul_of_pos_left _ (by omega)
  have hstop : (event + 1) * l.width ≤ l.events * l.width := Nat.mul_le_mul_right _ he
  have hstart : event * l.width ≤ (event + 1) * l.width :=
    Nat.mul_le_mul_right _ (Nat.le_succ event)
  unfold eventRange
  simp only [bind_eq_ok_iff, Word.add_eq_ok_iff, Word.mul_eq_ok_iff]
  refine ⟨_, ⟨?_, rfl⟩, _, ⟨?_, rfl⟩, _, ⟨?_, rfl⟩, _, ⟨?_, rfl⟩, ?_⟩
  · exact Nat.lt_of_le_of_lt hwidth htotal
  · exact Nat.lt_of_le_of_lt (hstart.trans hstop) htotal
  · exact Nat.lt_of_le_of_lt (Nat.succ_le_of_lt he) hevents
  · exact Nat.lt_of_le_of_lt hstop htotal
  · rw [Nat.succ_mul]
    rfl

/-! ## Counts -/

theorem chosen_eq_ok (hfits : l.Fits) (hevents : l.events < 2 ^ 64) (hx : x.length = l.total)
    (he : event < l.events) :
    l.chosen x.toArray event = .ok ((l.block event).filter x.holds) := by
  have hread : ∀ v ∈ l.block event,
      (do return isSet (← Table.read x.toArray v) : Except Fault Bool) = .ok (x.holds v) := by
    intro v hv
    rw [Table.read_toArray (hx ▸ lt_total_of_mem_block he hv) 0]
    rfl
  have howned : l.owned event = .ok (l.block event) := by
    unfold owned
    refine bind_eq_ok_iff.mpr ⟨_, eventRange_eq_ok hfits hevents he, ?_⟩
    show Except.ok (List.range' _ (_ + l.width - _)) = _
    rw [Nat.add_sub_cancel_left]
    rfl
  exact bind_eq_ok_iff.mpr ⟨_, howned, filterM_eq_ok hread⟩

theorem occupants_eq_ok (hfits : l.Fits) (hx : x.length = l.total) {p : Place}
    (hp : p ∈ l.places) :
    l.occupants x.toArray p = .ok ((List.range l.events).filter fun event =>
      x.holds (l.index event p.room p.slot)) := by
  refine filterM_eq_ok ?_
  intro event hevent
  have hroom := mem_places.mp hp
  have hevent' : event < l.events := List.mem_range.mp hevent
  rw [bit_eq_ok hfits hevent' hroom.1 hroom.2]
  show (do return isSet (← Table.read x.toArray _) : Except Fault Bool) = _
  rw [Table.read_toArray (hx ▸ index_lt hevent' hroom.1 hroom.2) 0]
  rfl

/-- Without bits nobody is anywhere. -/
theorem crowd_eq_zero (hbits : l.total = 0) {p : Place} (hp : p ∈ l.places) : l.crowd x p = 0 := by
  have hroom := mem_places.mp hp
  have hplaces : 0 < l.width :=
    Nat.mul_pos (Nat.zero_lt_of_lt hroom.1) (Nat.zero_lt_of_lt hroom.2)
  have hevents : l.events = 0 := by
    rw [total_eq] at hbits
    exact (Nat.mul_eq_zero.mp hbits).resolve_right (Nat.ne_of_gt hplaces)
  unfold crowd
  rw [hevents]
  rfl

/-- Everything that is wrong with the bits, counted event by event and place by place. -/
def counted (l : Layout) (x : Bits) : Violations where
  unassigned := (List.range l.events).countP fun event => l.load x event == 0
  multiplyAssigned := (List.range l.events).countP fun event => 2 ≤ l.load x event
  conflicts := (l.places.map fun p => pairs (l.crowd x p)).sum

/-- Without bits no event has one. -/
theorem load_eq_zero (hbits : l.total = 0) (he : event < l.events) : l.load x event = 0 := by
  have hwidth : l.width = 0 := by
    rw [total_eq] at hbits
    exact (Nat.mul_eq_zero.mp hbits).resolve_left (Nat.ne_of_gt (Nat.zero_lt_of_lt he))
  unfold load block
  rw [hwidth]
  rfl

theorem countViolations_eq_ok (hfits : l.Fits) (hx : x.length = l.total) :
    l.countViolations x.toArray = .ok (l.counted x) := by
  unfold countViolations
  by_cases hempty : x.toArray.isEmpty
  · have hbits : l.total = 0 := by
      rw [← hx]
      simpa using hempty
    have hloads : ∀ p : Nat → Bool,
        (List.range l.events).countP (fun event => p (l.load x event)) =
          (List.range l.events).countP fun _ => p 0 :=
      fun p => List.countP_congr fun event hevent => by
        rw [load_eq_zero hbits (List.mem_range.mp hevent)]
    have hnone : l.places.map (fun p => pairs (l.crowd x p)) = l.places.map fun _ => 0 :=
      List.map_congr_left fun p hp => by rw [crowd_eq_zero hbits hp]; rfl
    rw [if_pos hempty, counted, hloads (· == 0), hloads (2 ≤ ·), hnone]
    simp [pure, Except.pure]
  · have hbits : 0 < l.total := by
      rw [← hx]
      refine Nat.pos_of_ne_zero fun hzero => hempty ?_
      simpa using hzero
    have hcounts : ∀ event ∈ List.range l.events,
        (do return (← l.chosen x.toArray event).length : Except Fault Nat) =
          .ok (l.load x event) := by
      intro event hevent
      rw [chosen_eq_ok hfits (hfits.events_lt hbits) hx (List.mem_range.mp hevent), load,
        List.countP_eq_length_filter]
      rfl
    have hshared : ∀ p ∈ l.places,
        (do return pairs (← l.occupants x.toArray p).length : Except Fault Nat) =
          .ok (pairs (l.crowd x p)) := by
      intro p hp
      rw [occupants_eq_ok hfits hx hp, crowd, List.countP_eq_length_filter]
      rfl
    rw [if_neg hempty, mapM_eq_ok hcounts, mapM_eq_ok hshared]
    simp only [bind, Except.bind, pure, Except.pure, List.countP_map, counted]
    rfl

theorem violations_eq_counted {α : Type} (hfits : l.Fits) (hx : x.length = l.total) :
    (l.violations x : Except (Failure α) Violations) = .ok (l.counted x) := by
  unfold violations
  refine bind_eq_ok_iff.mpr ⟨l.total, liftFault_eq_ok_iff.mpr (size_eq_ok_iff.mpr ⟨hfits, rfl⟩), ?_⟩
  refine bind_eq_ok_iff.mpr ⟨(), ?_, liftFault_eq_ok_iff.mpr (countViolations_eq_ok hfits hx)⟩
  exact liftRejection_eq_ok_iff.mpr (requireLength_eq_ok_iff.mpr hx.symm)

/-- Conflicts are counted place by place. -/
theorem violations_eq_ok {α : Type} (hfits : l.Fits) (hx : x.length = l.total) :
    ∃ v, (l.violations x : Except (Failure α) Violations) = .ok v ∧
      v.conflicts = (l.places.map fun p => pairs (l.crowd x p)).sum :=
  ⟨l.counted x, violations_eq_counted hfits hx, rfl⟩

/-- Only vectors with one entry for each bit are judged. -/
theorem of_violations_eq_ok {α : Type} {v : Violations}
    (h : (l.violations x : Except (Failure α) Violations) = .ok v) :
    x.length = l.total ∧ v = l.counted x := by
  unfold violations at h
  rcases bind_eq_ok_iff.mp h with ⟨n, hn, hrest⟩
  rcases bind_eq_ok_iff.mp hrest with ⟨⟨⟩, hlength, hcount⟩
  rcases size_eq_ok_iff.mp (liftFault_eq_ok_iff.mp hn) with ⟨hfits, rfl⟩
  have hx : x.length = l.total :=
    (requireLength_eq_ok_iff.mp (liftRejection_eq_ok_iff.mp hlength)).symm
  rw [countViolations_eq_ok hfits hx] at hcount
  exact ⟨hx, (Except.ok.inj (liftFault_eq_ok_iff.mp hcount)).symm⟩

/-- Nothing is wrong when each event has one place and no place has two events. -/
theorem isFeasible_counted_iff :
    (l.counted x).isFeasible = true ↔
      (∀ event < l.events, l.load x event = 1) ∧ (l.counted x).conflicts = 0 := by
  unfold Violations.isFeasible
  rw [Bool.and_eq_true, Bool.and_eq_true, beq_iff_eq, beq_iff_eq, beq_iff_eq]
  refine and_congr_left fun _ => ?_
  unfold counted
  rw [List.countP_eq_zero, List.countP_eq_zero]
  constructor
  · rintro ⟨hnone, hmany⟩ event hevent
    have h0 := hnone event (List.mem_range.mpr hevent)
    have h2 := hmany event (List.mem_range.mpr hevent)
    simp at h0 h2
    omega
  · intro hone
    constructor
    · intro event hevent
      simp [hone event (List.mem_range.mp hevent)]
    · intro event hevent
      simp [hone event (List.mem_range.mp hevent)]

/-! ## Counts as sums of digits -/

open Finset

variable {K : Type} [Field K]

theorem countP_eq_sum_digit (l : List Nat) (x : Bits) (bit : Nat → Nat) :
    ((l.countP fun i => x.holds (bit i) : Nat) : K) =
      (l.map fun i => Qubo.digit K x (bit i)).sum := by
  induction l with
  | nil => simp
  | cons i l ih =>
    rw [List.countP_cons, List.map_cons, List.sum_cons, ← ih]
    cases hbit : x.holds (bit i) <;> simp [Qubo.digit, hbit, add_comm]

theorem load_eq_sum (l : Layout) (x : Bits) (event : Nat) :
    (l.load x event : K) =
      ∑ v ∈ Ico (event * l.width) (event * l.width + l.width), Qubo.digit K x v := by
  rw [← sum_map_range']
  exact countP_eq_sum_digit _ x id

theorem crowd_eq_sum (l : Layout) (x : Bits) (p : Place) :
    (l.crowd x p : K) =
      ∑ event ∈ range l.events, Qubo.digit K x (l.index event p.room p.slot) := by
  rw [← sum_map_range]
  exact countP_eq_sum_digit _ x _

theorem two_mul_pairs (n : Nat) : 2 * (pairs n : K) = (n : K) ^ 2 - n := by
  have heven : 2 * pairs n = n * (n - 1) :=
    Nat.mul_div_cancel' (Nat.even_mul_pred_self n).two_dvd
  cases n with
  | zero => simp [pairs]
  | succ n =>
    have hcast : ((2 * pairs (n + 1) : Nat) : K) = (((n + 1) * n : Nat) : K) := congrArg _ heven
    push_cast at hcast ⊢
    rw [hcast]
    ring

/-- The bits of an event, place by place. -/
theorem sum_block (l : Layout) (event : Nat) (g : Nat → K) :
    ∑ v ∈ Ico (event * l.width) (event * l.width + l.width), g v =
      ∑ room ∈ range l.rooms, ∑ slot ∈ range l.slots, g (l.index event room slot) := by
  simp only [index_eq]
  rw [sum_Ico_eq_sum_range, Nat.add_sub_cancel_left, width, sum_range_mul]

end ThermalSearch.Timetable.Layout
