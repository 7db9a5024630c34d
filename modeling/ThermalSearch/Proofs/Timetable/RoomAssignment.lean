import ThermalSearch.Proofs.Model.PottsEnergy
import ThermalSearch.Proofs.Timetable.Decoding
import ThermalSearch.Proofs.Timetable.QuboMeaning

/-!
# Timetables with a single slot

With one slot, a place is a room, and a timetable can be written down either as bits or as the room
of each event. Both encodings then say the same:

* `drawn_toPotts`: the fields and couplings of the Potts model, as it is built row by row;
* `holds_oneHot`: the bits of an assignment of rooms;
* `evaluate_oneHot`: the energies differ by the penalty weight of all events.
-/

namespace ThermalSearch.Timetable

/-! ## What the Potts model is -/

section

variable {α : Type} [Scalar α] {events : List (Event α)} {rooms : List Room} {penalty : α}
  {fields fields' pairs pairs' : Nat → Nat → Prop} {m m' : Potts α} {i j r : Nat}

/-- A model in which some events are drawn to some rooms as they should be, and some pairs of
events are kept apart. -/
structure Drawn (events : List (Event α)) (rooms : List Room) (penalty : α)
    (fields pairs : Nat → Nat → Prop) (m : Potts α) : Prop where
  fits : m.Fits
  size : m.size = events.length
  states : m.states = rooms.length
  field : ∀ (e : Fin events.length) (r : Fin rooms.length), fields e r →
    m.fieldOf e r = roomField penalty (events.get e) (rooms.get r) r
  coupling : ∀ i j, i < j → j < events.length → pairs i j → m.couplingOf i j = -penalty

theorem Drawn.mono (h : Drawn events rooms penalty fields pairs m)
    (hfields : ∀ i r, r < rooms.length → fields' i r → fields i r)
    (hpairs : ∀ i j, i < j → j < events.length → pairs' i j → pairs i j) :
    Drawn events rooms penalty fields' pairs' m where
  fits := h.fits
  size := h.size
  states := h.states
  field e r hk := h.field e r (hfields e r r.isLt hk)
  coupling i j hij hj hk := h.coupling i j hij hj (hpairs i j hij hj hk)

theorem drawn_zero (h : Potts.zero events.length rooms.length = .ok m) :
    Drawn events rooms penalty (fun _ _ => False) (fun _ _ => False) m where
  fits := (Potts.of_zero_eq_ok h).2.2.1
  size := (Potts.of_zero_eq_ok h).1
  states := (Potts.of_zero_eq_ok h).2.1
  field _ _ hnone := hnone.elim
  coupling _ _ _ _ hnone := hnone.elim

theorem Drawn.event_lt (h : Drawn events rooms penalty fields pairs m) (e : Fin events.length) :
    (e : Nat) < m.size := by
  rw [h.size]
  exact e.isLt

theorem Drawn.room_lt (h : Drawn events rooms penalty fields pairs m) (r : Fin rooms.length) :
    (r : Nat) < m.states := by
  rw [h.states]
  exact r.isLt

theorem Drawn.setField (h : Drawn events rooms penalty fields pairs m) {e : Fin events.length}
    {r : Fin rooms.length}
    (hset : m.setField e r (roomField penalty (events.get e) (rooms.get r) r) = .ok m') :
    Drawn events rooms penalty (fun k s => fields k s ∨ k = e ∧ s = r) pairs m' := by
  rcases h.fits.of_setField_eq_ok (h.event_lt e) (h.room_lt r) hset with ⟨hcouplings, hstates, hfits, hfield⟩
  have hsize : m'.size = m.size := congrArg Couplings.size hcouplings
  refine ⟨hfits, hsize.trans h.size, hstates.trans h.states, ?_, ?_⟩
  · intro k s hwritten
    rw [hfield k s (h.event_lt k) (h.room_lt s)]
    by_cases hplace : (k : Nat) = e ∧ (s : Nat) = r
    · rw [if_pos hplace]
      rw [Fin.ext hplace.1, Fin.ext hplace.2]
    · rw [if_neg hplace]
      exact h.field k s (hwritten.resolve_right hplace)
  · intro k l hkl hl hwritten
    unfold Potts.couplingOf
    rw [hcouplings]
    exact h.coupling k l hkl hl hwritten

theorem Drawn.setCoupling (h : Drawn events rooms penalty fields pairs m) (hij : i < j)
    (hj : j < events.length) (hset : m.setCoupling i j (-penalty) = .ok m') :
    Drawn events rooms penalty fields (fun k l => pairs k l ∨ k = i ∧ l = j) m' := by
  have hj' : j < m.size := h.size ▸ hj
  have hi' : i < m.size := Nat.lt_trans hij hj'
  rcases h.fits.of_setCoupling_eq_ok hi' hj' (Nat.ne_of_lt hij) hset
    with ⟨hsize, hstates, hfits, hfields, hcoupling⟩
  refine ⟨hfits, hsize.trans h.size, hstates.trans h.states, ?_, ?_⟩
  · intro k s hwritten
    unfold Potts.fieldOf
    rw [hfields, hstates]
    exact h.field k s hwritten
  · intro k l hkl hl hwritten
    have hl' : l < m.size := h.size ▸ hl
    rw [hcoupling k l (Nat.lt_trans hkl hl') hl']
    -- the mirrored cell lies on the other side of the diagonal
    have hside : ¬(k = j ∧ l = i) := by omega
    by_cases hplace : k = i ∧ l = j
    · rw [if_pos (Or.inl hplace)]
    · rw [if_neg (not_or.mpr ⟨hplace, hside⟩)]
      exact h.coupling k l hkl hl (hwritten.resolve_right hplace)

/-- In the row of an event, one room after the other. -/
theorem Drawn.setFields (h : Drawn events rooms penalty fields pairs m) {e : Fin events.length}
    (hset : rooms.zipIdx.foldlM (fun (m : Potts α) (room, r) => do
      let h := roomField penalty (events.get e) room r
      (requireFinite .pottsField h : Except (Rejection α) Unit)
      m.setField e r h) m = (.ok m' : Except (Failure α) _)) :
    Drawn events rooms penalty (fun k s => fields k s ∨ k = e) pairs m' := by
  have hrow : Drawn events rooms penalty (fun k s => fields k s ∨ k = e ∧ s < rooms.length)
      pairs m' := by
    refine foldlM_zipIdx
      (fun r => Drawn events rooms penalty (fun k s => fields k s ∨ k = e ∧ s < r) pairs) ?_ ?_ hset
    · intro r m m' hm hpass
      rcases bind_eq_ok_iff.mp hpass with ⟨⟨⟩, -, hwrite⟩
      refine (hm.setField (liftFault_eq_ok_iff.mp hwrite)).mono ?_ ?_
      · intro k s _ hk
        rw [Nat.lt_succ_iff_lt_or_eq] at hk
        tauto
      · intro k l _ _ hk
        exact hk
    · refine h.mono ?_ ?_
      · intro k s _ hk
        exact hk.resolve_right fun hnone => Nat.not_lt_zero s hnone.2
      · intro k l _ _ hk
        exact hk
  refine hrow.mono ?_ ?_
  · intro k s hs hk
    exact hk.imp_right fun hk => ⟨hk, hs⟩
  · intro k l _ _ hk
    exact hk

/-- Then its couplings, one later event after the other. -/
theorem Drawn.setCouplings (h : Drawn events rooms penalty fields pairs m)
    (hset : (following i events.length).foldlM
      (fun (m : Potts α) other => m.setCoupling i other (-penalty)) m = .ok m') :
    Drawn events rooms penalty fields (fun k l => pairs k l ∨ k = i) m' := by
  have hrow : Drawn events rooms penalty fields
      (fun k l => pairs k l ∨ k = i ∧ l ∈ following i events.length) m' := by
    refine foldlM_seen (fun seen =>
      Drawn events rooms penalty fields (fun k l => pairs k l ∨ k = i ∧ l ∈ seen)) ?_ ?_ hset
    · intro seen j m m' hj hm hpass
      rcases mem_following.mp hj with ⟨hij, hj'⟩
      refine (hm.setCoupling hij hj' hpass).mono ?_ ?_
      · intro k s _ hk
        exact hk
      · intro k l _ _ hk
        rw [List.mem_append, List.mem_singleton] at hk
        tauto
    · refine h.mono ?_ ?_
      · intro k s _ hk
        exact hk
      · intro k l _ _ hk
        exact hk.resolve_right fun hnone => List.not_mem_nil hnone.2
  refine hrow.mono ?_ ?_
  · intro k s _ hk
    exact hk
  · intro k l hkl hl hk
    exact hk.imp_right fun hk => ⟨hk, mem_following.mpr ⟨hk ▸ hkl, hl⟩⟩

/-- The whole model, event after event. -/
theorem drawn_toPotts (h : toPotts events rooms penalty = .ok m) :
    Drawn events rooms penalty (fun _ _ => True) (fun _ _ => True) m := by
  unfold toPotts at h
  rcases bind_eq_ok_iff.mp h with ⟨_, -, h⟩
  rcases bind_eq_ok_iff.mp h with ⟨_, -, h⟩
  rcases bind_eq_ok_iff.mp h with ⟨start, hstart, hloop⟩
  have hall : Drawn events rooms penalty (fun k _ => k < events.length)
      (fun k _ => k < events.length) m := by
    refine foldlM_zipIdx
      (fun e => Drawn events rooms penalty (fun k _ => k < e) (fun k _ => k < e)) ?_ ?_ hloop
    · intro e m m' hm hpass
      rcases bind_eq_ok_iff.mp hpass with ⟨m₁, hfields, hpairs⟩
      have hnext := (hm.setFields hfields).setCouplings (liftFault_eq_ok_iff.mp hpairs)
      refine hnext.mono ?_ ?_
      · intro k s _ hk
        exact Nat.lt_succ_iff_lt_or_eq.mp hk
      · intro k l _ _ hk
        exact Nat.lt_succ_iff_lt_or_eq.mp hk
    · refine (drawn_zero hstart).mono ?_ ?_
      · intro k s _ hk
        exact Nat.not_lt_zero k hk
      · intro k l _ _ hk
        exact Nat.not_lt_zero k hk
  refine ⟨hall.fits, hall.size, hall.states, ?_, ?_⟩
  · intro e r _
    exact hall.field e r e.isLt
  · intro i j hij hj _
    exact hall.coupling i j hij hj (Nat.lt_trans hij hj)

end

/-! ## Wishes that are places -/

section

variable {α : Type} [Scalar α] {rooms : Nat} {slots : Option Nat}

theorem Event.of_validate {event : Event α} {index : Nat}
    (h : event.validate index rooms slots = .ok ()) :
    ∀ w ∈ event.wishes, Scalar.isFinite w.weight = true ∧ Event.isPlace rooms slots w = true := by
  intro w hw
  have hchecked := eq_ok_of_forM h w hw
  rw [check_eq_ok_iff, requireFinite_eq_ok_iff, refuseIf_eq_ok_iff, Bool.not_eq_false'] at hchecked
  exact hchecked

/-- Every wish has a finite weight and names a place. -/
theorem Event.of_validateAll {events : List (Event α)} {index : Nat}
    (h : Event.validateAll index rooms slots events = .ok ()) :
    ∀ event ∈ events, ∀ w ∈ event.wishes,
      Scalar.isFinite w.weight = true ∧ Event.isPlace rooms slots w = true := by
  induction events generalizing index with
  | nil =>
    intro event hevent
    cases hevent
  | cons first events ih =>
    unfold Event.validateAll at h
    rw [check_eq_ok_iff] at h
    intro event hevent
    rcases List.mem_cons.mp hevent with rfl | hevent
    · exact Event.of_validate h.1
    · exact ih h.2 event hevent

/-- When there is one slot only, a wish for a room at that slot is a wish for the room. -/
theorem Event.preference_zero {event : Event α} {r : Nat}
    (h : ∀ w ∈ event.wishes, Event.isPlace rooms (some 1) w = true) :
    event.preference r 0 = event.roomPreference r := by
  unfold Event.preference Event.roomPreference
  congr 2
  apply List.filter_congr
  intro w hw
  have hplace := h w hw
  unfold Event.isPlace at hplace
  have hslot : w.slot = 0 := by
    simp at hplace
    exact hplace.2
  rw [hslot]
  simp

end

/-! ## The bits of an assignment of rooms -/

namespace Layout

open Finset

variable {l : Layout} {s : List Nat} {event room : Nat}

/-- The bits that give each event its room, at the first slot. -/
def oneHot (l : Layout) (s : List Nat) : Bits :=
  (List.range l.total).map fun v =>
    if s.zipIdx.any (fun (room, event) => l.index event room 0 == v) then 1 else 0

/-- Each event is given a room that there is. -/
structure IsChoice (l : Layout) (s : List Nat) : Prop where
  length : s.length = l.events
  rooms : ∀ room ∈ s, room < l.rooms

@[simp] theorem length_oneHot (l : Layout) (s : List Nat) : (l.oneHot s).length = l.total := by
  unfold oneHot
  rw [List.length_map, List.length_range]

theorem IsChoice.getD_lt (h : l.IsChoice s) (he : event < l.events) :
    s.getD event 0 < l.rooms := by
  have he' : event < s.length := h.length ▸ he
  rw [List.getD_eq_getElem?_getD, List.getElem?_eq_getElem he']
  exact h.rooms _ (List.getElem_mem he')

/-- The bit of an event in a room is set if the room is its own. -/
theorem holds_oneHot (h : l.IsChoice s) (hslots : 0 < l.slots) (he : event < l.events)
    (hr : room < l.rooms) :
    (l.oneHot s).holds (l.index event room 0) = true ↔ s.getD event 0 = room := by
  have hv : l.index event room 0 < l.total := index_lt he hr hslots
  have hbit : (l.oneHot s).holds (l.index event room 0) =
      s.zipIdx.any fun (room', event') => l.index event' room' 0 == l.index event room 0 := by
    unfold Bits.holds oneHot
    rw [List.getD_eq_getElem?_getD, List.getElem?_map, List.getElem?_range hv]
    show isSet (if _ then 1 else 0) = _
    split
    next hany => rw [hany]; rfl
    next hany => rw [Bool.eq_false_of_not_eq_true hany]; rfl
  have hget : s[event]? = some (s.getD event 0) := by
    have he' : event < s.length := h.length ▸ he
    rw [List.getD_eq_getElem?_getD, List.getElem?_eq_getElem he']
    rfl
  rw [hbit, List.any_eq_true]
  constructor
  · rintro ⟨⟨room', event'⟩, hmem, hindex⟩
    have hentry : s[event']? = some room' := List.mem_zipIdx_iff_getElem?.mp hmem
    have hroom' : room' < l.rooms := h.rooms room' (List.mem_of_getElem? hentry)
    have hplace : (⟨room', 0⟩ : Place) ∈ l.places := mem_places.mpr ⟨hroom', hslots⟩
    have hplace' : (⟨room, 0⟩ : Place) ∈ l.places := mem_places.mpr ⟨hr, hslots⟩
    rcases index_injective hplace hplace' (beq_iff_eq.mp hindex) with ⟨rfl, hsame⟩
    rw [hget] at hentry
    exact (Option.some.inj hentry).trans (congrArg Place.room hsame)
  · intro hroom
    refine ⟨(s.getD event 0, event), List.mem_zipIdx_iff_getElem?.mpr hget, ?_⟩
    rw [hroom]
    exact beq_self_eq_true _

/-- Pairs of events in one room. -/
def together (l : Layout) (s : List Nat) : Nat :=
  ∑ i ∈ range l.events, ∑ j ∈ Ico (i + 1) l.events, if s.getD j 0 = s.getD i 0 then 1 else 0

/-- With one slot, each event has its room and no other place. -/
theorem load_oneHot (h : l.IsChoice s) (hslots : l.slots = 1) (he : event < l.events) :
    l.load (l.oneHot s) event = 1 := by
  have hplace : (⟨s.getD event 0, 0⟩ : Place) ∈ l.places :=
    mem_places.mpr ⟨h.getD_lt he, hslots ▸ Nat.one_pos⟩
  refine load_eq_one hplace ?_
  intro p hp
  rcases mem_places.mp hp with ⟨hr, ht⟩
  have hslot : p.slot = 0 := by omega
  rw [hslot, holds_oneHot h (hslots ▸ Nat.one_pos) he hr]
  constructor
  · intro hroom
    rw [hroom, ← hslot]
  · rintro rfl
    rfl

/-- With one slot, events are in conflict when they have one room. -/
theorem conflicts_oneHot (h : l.IsChoice s) (hslots : l.slots = 1) :
    (l.counted (l.oneHot s)).conflicts = l.together s := by
  have hfollowing : ∀ i, (range l.events).filter (i < ·) = Ico (i + 1) l.events := by
    intro i
    ext j
    simp only [mem_filter, mem_range, mem_Ico]
    omega
  have hroom : ∀ room ∈ range l.rooms, pairs (l.crowd (l.oneHot s) ⟨room, 0⟩) =
      ∑ i ∈ range l.events, ∑ j ∈ Ico (i + 1) l.events,
        if s.getD i 0 = room ∧ s.getD j 0 = room then 1 else 0 := by
    intro room hr
    have hholds : ∀ i ∈ range l.events,
        ((l.oneHot s).holds (l.index i room 0) = true ↔ s.getD i 0 = room) := fun i hi =>
      holds_oneHot h (hslots ▸ Nat.one_pos) (mem_range.mp hi) (mem_range.mp hr)
    unfold crowd
    rw [← sum_pairs_eq]
    refine sum_congr rfl fun i hi => ?_
    rw [← hfollowing, sum_filter]
    refine sum_congr rfl fun j hj => ?_
    simp only [hholds i hi, hholds j hj, ite_and]
  have hpair : ∀ i ∈ range l.events, ∀ j,
      (∑ room ∈ range l.rooms, if s.getD i 0 = room ∧ s.getD j 0 = room then 1 else 0) =
        if s.getD j 0 = s.getD i 0 then 1 else 0 := by
    intro i hi j
    have hr : s.getD i 0 ∈ range l.rooms := mem_range.mpr (h.getD_lt (mem_range.mp hi))
    simp only [ite_and]
    rw [sum_ite_eq, if_pos hr]
  calc
    (l.counted (l.oneHot s)).conflicts
      = ∑ room ∈ range l.rooms, pairs (l.crowd (l.oneHot s) ⟨room, 0⟩) := by
        unfold counted
        rw [sum_places, hslots]
        simp only [sum_range_one]
    _ = ∑ i ∈ range l.events, ∑ room ∈ range l.rooms, ∑ j ∈ Ico (i + 1) l.events,
          if s.getD i 0 = room ∧ s.getD j 0 = room then 1 else 0 := by
        rw [sum_congr rfl hroom, sum_comm]
    _ = l.together s := by
        refine sum_congr rfl fun i hi => ?_
        rw [sum_comm]
        exact sum_congr rfl fun j _ => hpair i hi j

end Layout

/-! ## Energies -/

section

open Finset

variable {K : Type} [Field K] [LinearOrder K] [FloorSemiring K] {f : Uninterpreted K}
  {events : List (Event (Exact f))} {rooms : List Room} {penalty : Exact f} {q : Qubo (Exact f)}
  {m : Potts (Exact f)} {s : List Nat} {room : Fin events.length → Fin rooms.length}

/-- How much the events prefer their rooms, less the penalty for attendees that stand. -/
def draw (events : List (Event (Exact f))) (rooms : List Room) (penalty : Exact f)
    (room : Fin events.length → Fin rooms.length) : K :=
  ∑ e : Fin events.length, (roomField penalty (events.get e) (rooms.get (room e)) (room e)).value

theorem hamiltonian_toPotts (hm : toPotts events rooms penalty = .ok m)
    (hroom : ∀ e : Fin events.length, s.getD e 0 = room e) :
    m.hamiltonian s = -draw events rooms penalty room +
      penalty.value * (layoutFor events rooms 1).together s := by
  have hdrawn := drawn_toPotts hm
  have hfields : ∑ i ∈ range m.size, (m.fieldOf i (s.getD i 0)).value =
      draw events rooms penalty room := by
    unfold draw
    rw [hdrawn.size, ← Fin.sum_univ_eq_sum_range (fun i => (m.fieldOf i (s.getD i 0)).value)]
    refine sum_congr rfl fun e _ => ?_
    rw [hroom]
    exact congrArg Exact.value (hdrawn.field e (room e) trivial)
  have hcouplings : ∑ i ∈ range m.size, ∑ j ∈ Ico (i + 1) m.size,
      (if s.getD j 0 = s.getD i 0 then (m.couplingOf i j).value else 0) =
        -(penalty.value * (layoutFor events rooms 1).together s) := by
    have hevents : (layoutFor events rooms 1).events = m.size := hdrawn.size.symm
    unfold Layout.together
    rw [hevents]
    push_cast
    rw [mul_sum, ← sum_neg_distrib]
    refine sum_congr rfl fun i _ => ?_
    rw [mul_sum, ← sum_neg_distrib]
    refine sum_congr rfl fun j hj => ?_
    rcases mem_Ico.mp hj with ⟨hij, hj⟩
    rw [hdrawn.coupling i j hij (hdrawn.size ▸ hj) trivial, Exact.value_neg]
    split
    · rw [mul_one]
    · rw [mul_zero, neg_zero]
  unfold Potts.hamiltonian
  rw [sum_add_distrib, hfields, hcouplings]
  ring

omit [Field K] [LinearOrder K] [FloorSemiring K] in
/-- Over the places of an event, what counts where its bit is set counts in its room. -/
theorem sum_places_oneHot {M : Type} [AddCommMonoid M]
    (hs : (layoutFor events rooms 1).IsChoice s)
    (hroom : ∀ e : Fin events.length, s.getD e 0 = room e)
    (e : Fin events.length) (g : Fin rooms.length → Nat → M) :
    (∑ r : Fin rooms.length, ∑ t ∈ range 1,
      if ((layoutFor events rooms 1).oneHot s).holds ((layoutFor events rooms 1).index e r t) then
        g r t else 0) = g (room e) 0 := by
  have hholds : ∀ r : Fin rooms.length,
      (((layoutFor events rooms 1).oneHot s).holds
        ((layoutFor events rooms 1).index e r 0) = true ↔ room e = r) := by
    intro r
    rw [Layout.holds_oneHot hs Nat.one_pos e.isLt r.isLt, hroom, Fin.ext_iff]
  simp only [sum_range_one, hholds]
  rw [sum_ite_eq, if_pos (mem_univ _)]

variable [IsStrictOrderedRing K]

theorem quadratic_oneHot (hq : toQubo events rooms 1 penalty = .ok q)
    (hs : (layoutFor events rooms 1).IsChoice s)
    (hroom : ∀ e : Fin events.length, s.getD e 0 = room e) :
    q.quadratic ((layoutFor events rooms 1).oneHot s) = -draw events rooms penalty room +
      penalty.value * (layoutFor events rooms 1).together s - penalty.value * events.length := by
  have hplaces : ∀ event ∈ events, ∀ w ∈ event.wishes,
      Event.isPlace rooms.length (some 1) w = true := by
    unfold toQubo at hq
    rcases bind_eq_ok_iff.mp hq with ⟨⟨⟩, -, hchecked⟩
    rcases bind_eq_ok_iff.mp hchecked with ⟨⟨⟩, hwishes, -⟩
    intro event hevent w hw
    exact (Event.of_validateAll (liftRejection_eq_ok_iff.mp hwishes) event hevent w hw).2
  have hloads : ∀ e : Fin events.length, (layoutFor events rooms 1).load
      ((layoutFor events rooms 1).oneHot s) e = 1 := fun e => Layout.load_oneHot hs rfl e.isLt
  have hbreaches : breaches events rooms 1 ((layoutFor events rooms 1).oneHot s) =
      ∑ e : Fin events.length, events[e].standing rooms[room e] ^ 2 +
        (layoutFor events rooms 1).together s := by
    unfold breaches
    rw [Layout.conflicts_oneHot hs rfl]
    congr 1
    have hdistance : ∑ e : Fin events.length, ((layoutFor events rooms 1).load
        ((layoutFor events rooms 1).oneHot s) e - 1 : ℤ).natAbs ^ 2 = 0 := by
      refine sum_eq_zero fun e _ => ?_
      rw [hloads]
      rfl
    rw [hdistance, add_zero]
    exact sum_congr rfl fun e _ =>
      sum_places_oneHot hs hroom e fun r _ => events[e].standing rooms[r] ^ 2
  have hsatisfaction : satisfaction events rooms 1 ((layoutFor events rooms 1).oneHot s) =
      ∑ e : Fin events.length, (events[e].roomPreference (room e)).value := by
    unfold satisfaction
    refine sum_congr rfl fun e _ => ?_
    rw [sum_places_oneHot hs hroom e fun r t => (events[e].preference r t).value]
    exact congrArg Exact.value (Event.preference_zero (hplaces _ (List.getElem_mem e.isLt)))
  have hdraw : draw events rooms penalty room =
      ∑ e : Fin events.length, (events[e].roomPreference (room e)).value -
        penalty.value * ∑ e : Fin events.length, (events[e].standing rooms[room e] : K) ^ 2 := by
    unfold draw
    rw [mul_sum, ← sum_sub_distrib]
    refine sum_congr rfl fun e _ => ?_
    unfold roomField Event.overflowSquared
    rw [Exact.value_sub, Exact.value_mul, Exact.value_mul, Exact.value_ofNat, sq]
    rfl
  rw [(quadratic_toQubo hq).2.2.2, hbreaches, hsatisfaction, hdraw]
  push_cast
  ring

/-! ## Result -/

/-- With one slot, and without rounding, both encodings give an assignment of rooms the same energy
up to the penalty weight of all events, so they agree on which assignments are best. -/
theorem evaluate_oneHot (events : List (Event (Exact f))) (rooms : List Room) (penalty : Exact f)
    (q : Qubo (Exact f)) (m : Potts (Exact f)) (hq : toQubo events rooms 1 penalty = .ok q)
    (hm : toPotts events rooms penalty = .ok m) :
    let l := layoutFor events rooms 1
    ∀ s, l.IsChoice s →
      (∃ a b, q.evaluate (l.oneHot s) = .ok a ∧ m.evaluate s = .ok b ∧
        a.value = b.value - penalty.value * events.length) ∧
      ((∃ a, q.evaluate (l.oneHot s) = .ok a ∧
          ∀ t other, l.IsChoice t → q.evaluate (l.oneHot t) = .ok other → a ≤ other) ↔
        ∃ b, m.evaluate s = .ok b ∧ ∀ t other, m.evaluate t = .ok other → b ≤ other) := by
  intro l
  have hdrawn := drawn_toPotts hm
  rcases quadratic_toQubo hq with ⟨-, hfits, hsize, -⟩
  have hqubo : ∀ s energy, q.evaluate (l.oneHot s) = .ok energy ↔
      True ∧ energy.value = q.quadratic (l.oneHot s) := by
    intro s energy
    rw [Qubo.evaluate_eq_ok_iff hfits]
    exact and_congr_left' (iff_true_intro ((l.length_oneHot s).trans hsize.symm))
  have hpotts : ∀ s energy, m.evaluate s = .ok energy ↔
      l.IsChoice s ∧ energy.value = m.hamiltonian s := by
    intro s energy
    rw [Potts.evaluate_eq_ok_iff_hamiltonian hdrawn.fits, hdrawn.size, hdrawn.states]
    exact and_congr_left' ⟨fun h => ⟨h.1, h.2⟩, fun h => ⟨h.length, h.rooms⟩⟩
  have hsame : ∀ s, l.IsChoice s →
      q.quadratic (l.oneHot s) = m.hamiltonian s - penalty.value * events.length := by
    intro s hs
    let room : Fin events.length → Fin rooms.length := fun e => ⟨s.getD e 0, hs.getD_lt e.isLt⟩
    have hroom : ∀ e : Fin events.length, s.getD e 0 = room e := fun _ => rfl
    rw [quadratic_oneHot hq hs hroom, hamiltonian_toPotts hm hroom]
  intro s hs
  refine ⟨⟨⟨_⟩, ⟨_⟩, (hqubo s _).mpr ⟨trivial, rfl⟩, (hpotts s _).mpr ⟨hs, rfl⟩, hsame s hs⟩, ?_⟩
  have hbest := Exact.least_iff hqubo l.IsChoice s
  have hbest' := Exact.least_iff hpotts (fun _ => True) s
  simp only [true_implies] at hbest'
  rw [hbest, hbest']
  refine ⟨fun h => ⟨hs, fun t ht => ?_⟩, fun h => ⟨trivial, fun t ht _ => ?_⟩⟩
  · have hle := h.2 t ht trivial
    rw [hsame s hs, hsame t ht] at hle
    linarith
  · rw [hsame s hs, hsame t ht]
    linarith [h.2 t ht]

/-- Both events are in the smaller room. -/
theorem evaluate_oneHot_crowded : ∃ q m a b,
    toQubo crowdedEvents smallAndLarge 1 ⟨5⟩ = .ok q ∧
      toPotts crowdedEvents smallAndLarge ⟨5⟩ = .ok m ∧
      (layoutFor crowdedEvents smallAndLarge 1).IsChoice [0, 0] ∧
      (layoutFor crowdedEvents smallAndLarge 1).oneHot [0, 0] = [1, 0, 1, 0] ∧
      q.evaluate [1, 0, 1, 0] = .ok a ∧ m.evaluate [0, 0] = .ok b ∧
      a.value = b.value - 5 * 2 := by
  have hqubo : (toQubo crowdedEvents smallAndLarge 1 ⟨5⟩).toOption.isSome = true := by
    decide +kernel
  have hpotts : (toPotts crowdedEvents smallAndLarge ⟨5⟩).toOption.isSome = true := by
    decide +kernel
  have hchoice : (layoutFor crowdedEvents smallAndLarge 1).IsChoice [0, 0] :=
    ⟨rfl, by decide⟩
  cases hq : toQubo crowdedEvents smallAndLarge 1 ⟨5⟩ with
  | error failure =>
    rw [hq] at hqubo
    cases hqubo
  | ok q =>
    cases hm : toPotts crowdedEvents smallAndLarge ⟨5⟩ with
    | error failure =>
      rw [hm] at hpotts
      cases hpotts
    | ok m =>
      have hresult :=
        evaluate_oneHot crowdedEvents smallAndLarge ⟨5⟩ q m hq hm [0, 0] hchoice
      rcases hresult.1 with ⟨a, b, ha, hb, hvalue⟩
      exact ⟨q, m, a, b, rfl, rfl, hchoice, rfl, ha, hb, hvalue⟩

end

end ThermalSearch.Timetable
