import Mathlib.Algebra.Order.BigOperators.Group.Finset
import Mathlib.Data.Rat.Floor
import Mathlib.Tactic.Linarith
import ThermalSearch.Proofs.Timetable.Counting
import ThermalSearch.Timetable.Encoding

/-!
# What the QUBO of a timetable means

The coefficients are written by loops over events, places and pairs, each of which adds to the
energy of a given bit vector. What a loop adds is found from what its body adds, from the inside
out:

* `addPlaces_adds`: preferences, one penalty weight for each set bit, seats that are missing;
* `addChoices_adds`: the penalty weight for each two set bits of an event, twice;
* `addConflicts_adds`: the penalty weight for each two events at a place.

The penalty weights for single bits and for two bits of an event make up a square.
-/

namespace ThermalSearch.Timetable

open Finset Qubo

variable {K : Type} [Field K] [LinearOrder K] [IsStrictOrderedRing K] [FloorSemiring K]
  {f : Uninterpreted K} {l : Layout} {rooms : List Room} {penalty : Exact f}
  {q q' : Qubo (Exact f)} {x : Bits} {n : Nat}

/-- A QUBO over `n` bits with room for all coefficients. -/
structure Built (n : Nat) (q : Qubo (Exact f)) : Prop where
  size : q.size = n
  fits : q.Fits

omit [IsStrictOrderedRing K] in
theorem add_adds {v w : Nat} {c : Exact f} (hq : Built n q) (h : q.add v w c = .ok q') :
    Built n q' ∧ q'.quadratic x = q.quadratic x + digit K x v * digit K x w * c.value := by
  rcases of_add_eq_ok hq.fits h with ⟨-, -, hsize, hfits, -⟩
  exact ⟨⟨hsize.trans hq.size, hfits⟩, quadratic_add hq.fits h⟩

/-! ## Single bits -/

/-- The coefficient of a single bit of an event. -/
def placeCost (penalty : Exact f) (event : Event (Exact f)) (room : Room) (r t : Nat) : K :=
  -(event.preference r t).value - penalty.value + penalty.value * (event.overflowSquared room).value

omit [IsStrictOrderedRing K] in
theorem addPlaces_adds {index : Nat} {event : Event (Exact f)} (hq : Built n q)
    (h : addPlaces l rooms penalty index event q = .ok q') :
    Built n q' ∧ q'.quadratic x = q.quadratic x + ∑ r : Fin rooms.length, ∑ t ∈ range l.slots,
      digit K x (l.index index r t) * placeCost penalty event rooms[r] r t := by
  have hslot : ∀ (room : Room) (r : Nat) (q q' : Qubo (Exact f)) (t : Nat), t ∈ List.range l.slots →
      Built n q →
      (do
        let v ← l.bit index r t
        q.add v v (-event.preference r t - penalty + penalty * event.overflowSquared room)) =
          .ok q' →
      Built n q' ∧ q'.quadratic x = q.quadratic x +
        digit K x (l.index index r t) * placeCost penalty event room r t := by
    intro room r q q' t _ hq h
    rcases bind_eq_ok_iff.mp h with ⟨v, hv, h⟩
    have hcost : (-event.preference r t - penalty + penalty * event.overflowSquared room).value =
        placeCost penalty event room r t := by
      simp only [Exact.value_add, Exact.value_sub, Exact.value_neg, Exact.value_mul, placeCost]
    -- a single bit is multiplied with itself
    have hadds := add_adds (x := x) hq h
    rw [Layout.of_bit_eq_ok hv, digit_mul_self, hcost] at hadds
    exact hadds
  have hroom : ∀ (q q' : Qubo (Exact f)) (p : Room × Nat), p ∈ rooms.zipIdx → Built n q →
      (List.range l.slots).foldlM (fun q t => do
        let v ← l.bit index p.2 t
        q.add v v (-event.preference p.2 t - penalty + penalty * event.overflowSquared p.1)) q =
          .ok q' →
      Built n q' ∧ q'.quadratic x = q.quadratic x +
        ∑ t ∈ range l.slots, digit K x (l.index index p.2 t) * placeCost penalty event p.1 p.2 t :=
    fun q q' p _ hq h => foldlM_adds (hslot p.1 p.2) hq h
  have hall := foldlM_adds hroom hq h
  rw [sum_map_zipIdx] at hall
  exact hall

/-! ## Pairs of bits -/

/-- Each pair of a range is gone through once. -/
theorem pairs_adds {body : Nat → Qubo (Exact f) → Nat → Except Fault (Qubo (Exact f))}
    {bit : Nat → Nat} {c : K}
    (hbody : ∀ i q q' j, Built n q → body i q j = .ok q' →
      Built n q' ∧ q'.quadratic x = q.quadratic x + digit K x (bit i) * digit K x (bit j) * c)
    {start stop : Nat} (hrange : start ≤ stop) (hq : Built n q)
    (h : (List.range' start (stop - start)).foldlM
      (fun q i => (following i stop).foldlM (body i) q) q = .ok q') :
    Built n q' ∧ q'.quadratic x = q.quadratic x +
      ((∑ i ∈ Ico start stop, digit K x (bit i)) ^ 2 - ∑ i ∈ Ico start stop, digit K x (bit i)) /
        2 * c := by
  have hrow : ∀ (q q' : Qubo (Exact f)) (i : Nat), i ∈ List.range' start (stop - start) →
      Built n q → (following i stop).foldlM (body i) q = .ok q' →
      Built n q' ∧ q'.quadratic x = q.quadratic x +
        ∑ j ∈ Ico (i + 1) stop, digit K x (bit i) * digit K x (bit j) * c := by
    intro q q' i _ hq h
    have hadds := foldlM_adds (fun q q' j _ => hbody i q q' j) hq h
    rw [sum_map_following] at hadds
    exact hadds
  have hall := foldlM_adds hrow hq h
  have hpairs := two_mul_sum_pairs (fun i => digit_mul_self (K := K) x (bit i)) start (stop - start)
  rw [sum_map_range'] at hall
  rw [Nat.add_sub_cancel' hrange] at hall hpairs
  have htwo : (2 : K) ≠ 0 := ne_of_gt two_pos
  refine ⟨hall.1, hall.2.trans ?_⟩
  rw [← hpairs, mul_div_cancel_left₀ _ htwo]
  simp only [sum_mul]

theorem addChoices_adds {index : Nat} (hq : Built n q)
    (h : addChoices l penalty index q = .ok q') :
    Built n q' ∧ q'.quadratic x = q.quadratic x +
      penalty.value * ((l.load x index : K) ^ 2 - l.load x index) := by
  unfold addChoices at h
  rcases bind_eq_ok_iff.mp h with ⟨⟨start, stop⟩, hrange, h⟩
  rcases Layout.of_eventRange_eq_ok hrange with ⟨rfl, rfl⟩
  have hbody : ∀ (v : Nat) (q q' : Qubo (Exact f)) (w : Nat), Built n q →
      q.add v w (2.0 * penalty) = .ok q' →
      Built n q' ∧ q'.quadratic x = q.quadratic x +
        digit K x (id v) * digit K x (id w) * (2.0 * penalty).value :=
    fun v q q' w hq h => add_adds hq h
  have hadds := pairs_adds hbody (Nat.le_add_right _ _) hq h
  have htwo : (2.0 * penalty).value = 2 * penalty.value := by
    rw [Exact.value_mul, Exact.value_two]
  refine ⟨hadds.1, hadds.2.trans ?_⟩
  rw [htwo, Layout.load_eq_sum]
  simp only [id]
  ring

theorem addConflicts_adds {p : Place} (hq : Built n q)
    (h : addConflicts l penalty q p = .ok q') :
    Built n q' ∧ q'.quadratic x = q.quadratic x +
      penalty.value * Layout.pairs (l.crowd x p) := by
  have hbody : ∀ (e₁ : Nat) (q q' : Qubo (Exact f)) (e₂ : Nat), Built n q →
      (do q.add (← l.bit e₁ p.room p.slot) (← l.bit e₂ p.room p.slot) penalty) = .ok q' →
      Built n q' ∧ q'.quadratic x = q.quadratic x +
        digit K x (l.index e₁ p.room p.slot) * digit K x (l.index e₂ p.room p.slot) *
          penalty.value := by
    intro e₁ q q' e₂ hq h
    rcases bind_eq_ok_iff.mp h with ⟨v, hv, h⟩
    rcases bind_eq_ok_iff.mp h with ⟨w, hw, h⟩
    rw [← Layout.of_bit_eq_ok hv, ← Layout.of_bit_eq_ok hw]
    exact add_adds hq h
  unfold addConflicts at h
  rw [List.range_eq_range'] at h
  have hadds := pairs_adds hbody (Nat.zero_le _) hq h
  have htwo : (2 : K) ≠ 0 := ne_of_gt two_pos
  refine ⟨hadds.1, hadds.2.trans ?_⟩
  rw [← range_eq_Ico, ← Layout.crowd_eq_sum, ← Layout.two_mul_pairs,
    mul_div_cancel_left₀ _ htwo, mul_comm]

/-! ## All coefficients -/

/-- What the coefficients for one event add to the energy of `x`. -/
def eventCost (l : Layout) (rooms : List Room) (penalty : Exact f) (x : Bits) (index : Nat)
    (event : Event (Exact f)) : K :=
  (∑ r : Fin rooms.length, ∑ t ∈ range l.slots,
    digit K x (l.index index r t) * placeCost penalty event rooms[r] r t) +
  penalty.value * ((l.load x index : K) ^ 2 - l.load x index)

theorem event_adds {index : Nat} {event : Event (Exact f)} (hq : Built n q)
    (h : (do
      let q ← addPlaces l rooms penalty index event q
      addChoices l penalty index q) = .ok q') :
    Built n q' ∧ q'.quadratic x = q.quadratic x + eventCost l rooms penalty x index event := by
  rcases bind_eq_ok_iff.mp h with ⟨q₁, hplaces, hchoices⟩
  have hplaces' := addPlaces_adds (x := x) hq hplaces
  have hchoices' := addChoices_adds (x := x) hplaces'.1 hchoices
  refine ⟨hchoices'.1, ?_⟩
  rw [hchoices'.2, hplaces'.2, eventCost, add_assoc]

theorem quadratic_fillQubo {events : List (Event (Exact f))} (hevents : l.events = events.length)
    (h : fillQubo l events rooms penalty = .ok q) :
    l.Fits ∧ Built l.total q ∧ q.quadratic x =
      ∑ e : Fin events.length, eventCost l rooms penalty x e events[e] +
        penalty.value * ((l.places.map fun p => Layout.pairs (l.crowd x p)).sum : Nat) := by
  unfold fillQubo at h
  rcases bind_eq_ok_iff.mp h with ⟨n, hsize, hrest⟩
  rcases bind_eq_ok_iff.mp hrest with ⟨q₀, hzero, hfill⟩
  rcases Layout.size_eq_ok_iff.mp hsize with ⟨hfits, rfl⟩
  have hq₀ : Built l.total q₀ := ⟨(of_zero_eq_ok hzero).1, (of_zero_eq_ok hzero).2.1⟩
  have hconflicts : ((l.places.map fun p => Layout.pairs (l.crowd x p)).sum : Nat) =
      (l.places.map fun p => (Layout.pairs (l.crowd x p) : K)).sum := by
    rw [Nat.cast_list_sum, List.map_map]
    rfl
  refine ⟨hfits, ?_⟩
  cases events with
  | nil =>
    -- nothing was written, and nobody is in conflict
    have hbits : l.total = 0 := by
      unfold Layout.total
      rw [hevents, List.length_nil, Nat.zero_mul, Nat.zero_mul]
    have hnone : (l.places.map fun p => Layout.pairs (l.crowd x p)) = l.places.map fun _ => 0 :=
      List.map_congr_left fun p hp => by rw [Layout.crowd_eq_zero hbits hp]; rfl
    cases hfill
    refine ⟨hq₀, ?_⟩
    rw [quadratic_zero hzero, hnone]
    simp
  | cons event events =>
    rcases bind_eq_ok_iff.mp hfill with ⟨q₁, hevent, hplace⟩
    have hbody : ∀ (q q' : Qubo (Exact f)) (p : Event (Exact f) × Nat),
        p ∈ (event :: events).zipIdx → Built l.total q →
        (do
          let q ← addPlaces l rooms penalty p.2 p.1 q
          addChoices l penalty p.2 q) = .ok q' →
        Built l.total q' ∧ q'.quadratic x = q.quadratic x +
          eventCost l rooms penalty x p.2 p.1 :=
      fun q q' p _ hq h => event_adds hq h
    have hfirst := foldlM_adds hbody hq₀ hevent
    have hconflict : ∀ (q q' : Qubo (Exact f)) (p : Place), p ∈ l.places → Built l.total q →
        addConflicts l penalty q p = .ok q' →
        Built l.total q' ∧ q'.quadratic x = q.quadratic x +
          penalty.value * Layout.pairs (l.crowd x p) :=
      fun q q' p _ hq h => addConflicts_adds hq h
    have hsecond := foldlM_adds hconflict hfirst.1 hplace
    refine ⟨hsecond.1, ?_⟩
    rw [hsecond.2, hfirst.2, quadratic_zero hzero, zero_add, sum_map_zipIdx, hconflicts,
      List.sum_map_mul_left]

omit [IsStrictOrderedRing K] in
/-- One penalty weight less for each set bit, and one more for each two of them in either order,
make up a square that is least when one bit is set. -/
theorem eventCost_eq (hrooms : l.rooms = rooms.length) (index : Nat) (event : Event (Exact f)) :
    eventCost l rooms penalty x index event =
      -(∑ r : Fin rooms.length, ∑ t ∈ range l.slots,
          if x.holds (l.index index r t) then (event.preference r t).value else 0) +
        penalty.value * (∑ r : Fin rooms.length, ∑ t ∈ range l.slots,
          if x.holds (l.index index r t) then (event.overflowSquared rooms[r]).value else 0) +
        penalty.value * (((l.load x index : K) - 1) ^ 2 - 1) := by
  have hplace : ∀ (r : Fin rooms.length) (t : Nat),
      digit K x (l.index index r t) * placeCost penalty event rooms[r] r t =
        -(if x.holds (l.index index r t) then (event.preference r t).value else 0) +
          penalty.value * (if x.holds (l.index index r t) then
            (event.overflowSquared rooms[r]).value else 0) -
          penalty.value * digit K x (l.index index r t) := by
    intro r t
    unfold placeCost digit
    split
    · ring
    · ring
  have hload : ∑ r : Fin rooms.length, ∑ t ∈ range l.slots, digit K x (l.index index r t) =
      l.load x index := by
    rw [Layout.load_eq_sum, Layout.sum_block, hrooms]
    exact Fin.sum_univ_eq_sum_range
      (fun r => ∑ t ∈ range l.slots, digit K x (l.index index r t)) rooms.length
  unfold eventCost
  simp only [hplace, sum_add_distrib, sum_sub_distrib, sum_neg_distrib, ← mul_sum]
  rw [hload]
  ring

/-! ## Result -/

/-- Without rounding, the energy of a bit vector is what its places cost: minus the preferences of
the places taken, and the penalty weight for seats that are missing, for events that are not at
one place exactly, and for conflicts. -/
theorem evaluate_toQubo (events : List (Event (Exact f))) (rooms : List Room) (slots : Nat)
    (penalty : Exact f) (q : Qubo (Exact f)) (x : Bits)
    (hq : toQubo events rooms slots penalty = .ok q)
    (hx : x.length = events.length * rooms.length * slots) :
    let l := layoutFor events rooms slots
    ∃ v energy, (l.violations x : Except (Failure (Exact f)) Violations) = .ok v ∧
      q.evaluate x = .ok energy ∧
      energy.value =
        -(∑ e : Fin events.length, ∑ r : Fin rooms.length, ∑ t ∈ range slots,
            if x.holds (l.index e r t) then (events[e].preference r t).value else 0) +
          penalty.value * (∑ e : Fin events.length, ∑ r : Fin rooms.length, ∑ t ∈ range slots,
            if x.holds (l.index e r t) then (events[e].overflowSquared rooms[r]).value else 0) +
          penalty.value * (∑ e : Fin events.length, (((l.load x e : K) - 1) ^ 2 - 1)) +
          penalty.value * v.conflicts := by
  intro l
  unfold toQubo at hq
  rcases bind_eq_ok_iff.mp hq with ⟨_, -, hchecked⟩
  rcases bind_eq_ok_iff.mp hchecked with ⟨_, -, hfill⟩
  have hbuilt := quadratic_fillQubo (x := x) (rfl : l.events = events.length)
    (liftFault_eq_ok_iff.mp hfill)
  rcases hbuilt with ⟨hfits, hq, hquadratic⟩
  rcases Layout.violations_eq_ok hfits hx with ⟨v, hv, hconflicts⟩
  refine ⟨v, _, hv, evaluate_eq_ok hq.fits (hx.trans hq.size.symm), ?_⟩
  rw [value_energy, hquadratic, ← hconflicts]
  simp only [eventCost_eq (rfl : l.rooms = rooms.length), sum_add_distrib, sum_neg_distrib,
    ← mul_sum]
  rfl

/-- Two events of which one has more attendees than the room has seats. -/
def crowdedEvents : List (Event (Exact (default : Uninterpreted ℚ))) :=
  [{ attendees := 22, wishes := [{ room := 0, slot := 0, weight := ⟨3⟩ }] }, { attendees := 10 }]

/-- Both events at the only place: a wish is granted, two attendees stand, and there is a
conflict. -/
theorem evaluate_toQubo_crowded : ∃ q energy,
    toQubo crowdedEvents [{ capacity := 20 }] 1 ⟨5⟩ = .ok q ∧ q.evaluate [1, 1] = .ok energy ∧
      energy.value = -3 + 5 * 4 + 5 * (-1 + -1) + 5 * 1 := by
  have hbuilt : (toQubo crowdedEvents [{ capacity := 20 }] 1 ⟨5⟩).toOption.isSome = true := by
    decide +kernel
  cases hq : toQubo crowdedEvents [{ capacity := 20 }] 1 ⟨5⟩ with
  | error failure =>
    rw [hq] at hbuilt
    cases hbuilt
  | ok q =>
    rcases evaluate_toQubo crowdedEvents [{ capacity := 20 }] 1 ⟨5⟩ q [1, 1] hq rfl
      with ⟨v, energy, hv, henergy, hvalue⟩
    have hconflicts : v.conflicts = 1 := by
      cases hv
      rfl
    refine ⟨q, energy, rfl, henergy, ?_⟩
    rw [hvalue, hconflicts]
    decide +kernel

end ThermalSearch.Timetable

/-!
# When the penalty weight is large enough

The search knows no rules, only an energy, in which a broken rule costs the penalty weight and a
granted wish earns its preference. Up to a constant the energy is therefore

  penalty weight * breaches - satisfaction

(`quadratic_toQubo`), where the breaches are a natural number: attendees without a seat are squared,
as is the distance of each event from having one place, and conflicts are counted. Bits without
breaches are a timetable (`isTimetable_iff`). A penalty weight above all that preferences could ever
make up for leaves no use for breaches, and the minimisers are the timetables that satisfy most.
-/

namespace ThermalSearch.Timetable

open Finset Qubo

/-! ## Timetables -/

section

variable {α : Type}

/-- How many attendees find no seat. -/
def Event.standing (event : Event α) (room : Room) : Nat := event.attendees - room.capacity

/-- The bits put every event in one place, no two events in the same place, and nobody is left
standing. -/
structure IsTimetable (events : List (Event α)) (rooms : List Room) (slots : Nat) (x : Bits) :
    Prop where
  feasible : ∃ v, ((layoutFor events rooms slots).violations x :
    Except (Failure α) Violations) = .ok v ∧ v.isFeasible = true
  seated : ∀ (e : Fin events.length) (r : Fin rooms.length), ∀ t < slots,
    x.holds ((layoutFor events rooms slots).index e r t) → events[e].attendees ≤ rooms[r].capacity

/-- How far the bits are from a timetable: attendees without a seat, the distance of each event
from having one place, and pairs of events in one place. -/
def breaches (events : List (Event α)) (rooms : List Room) (slots : Nat) (x : Bits) : Nat :=
  (∑ e : Fin events.length, ∑ r : Fin rooms.length, ∑ t ∈ range slots,
    if x.holds ((layoutFor events rooms slots).index e r t) then
      events[e].standing rooms[r] ^ 2 else 0) +
  ∑ e : Fin events.length, ((layoutFor events rooms slots).load x e - 1 : ℤ).natAbs ^ 2 +
  ((layoutFor events rooms slots).counted x).conflicts

variable {events : List (Event α)} {rooms : List Room} {slots : Nat} {x : Bits}

theorem breaches_eq_zero_iff :
    breaches events rooms slots x = 0 ↔
      (∀ (e : Fin events.length) (r : Fin rooms.length), ∀ t < slots,
        x.holds ((layoutFor events rooms slots).index e r t) →
          events[e].attendees ≤ rooms[r].capacity) ∧
      (∀ e < events.length, (layoutFor events rooms slots).load x e = 1) ∧
      ((layoutFor events rooms slots).counted x).conflicts = 0 := by
  unfold breaches
  rw [Nat.add_eq_zero_iff, Nat.add_eq_zero_iff, and_assoc]
  refine and_congr ?_ (and_congr_left' ?_)
  · -- a square vanishes where everybody has a seat
    simp only [sum_eq_zero_iff, mem_univ, true_implies, mem_range, ite_eq_right_iff,
      pow_eq_zero_iff two_ne_zero, Event.standing, Nat.sub_eq_zero_iff_le]
  · simp only [sum_eq_zero_iff, mem_univ, true_implies, pow_eq_zero_iff two_ne_zero,
      Int.natAbs_eq_zero, sub_eq_zero, Nat.cast_eq_one, Fin.forall_iff]

theorem isTimetable_iff (hfits : (layoutFor events rooms slots).Fits) :
    IsTimetable events rooms slots x ↔
      x.length = (layoutFor events rooms slots).total ∧ breaches events rooms slots x = 0 := by
  rw [breaches_eq_zero_iff]
  constructor
  · rintro ⟨⟨v, hv, hfeasible⟩, hseated⟩
    obtain ⟨hlength, rfl⟩ := Layout.of_violations_eq_ok hv
    obtain ⟨hloads, hconflicts⟩ := Layout.isFeasible_counted_iff.mp hfeasible
    exact ⟨hlength, hseated, hloads, hconflicts⟩
  · rintro ⟨hlength, hseated, hloads, hconflicts⟩
    exact ⟨⟨_, Layout.violations_eq_counted hfits hlength,
      Layout.isFeasible_counted_iff.mpr ⟨hloads, hconflicts⟩⟩, hseated⟩

end

/-! ## The energy in terms of breaches -/

variable {K : Type} [Field K] [LinearOrder K] [IsStrictOrderedRing K] [FloorSemiring K]
  {f : Uninterpreted K} {events : List (Event (Exact f))} {rooms : List Room} {slots : Nat}
  {penalty : Exact f} {q : Qubo (Exact f)} {x : Bits}

/-- How much the events prefer the places they have. -/
def satisfaction (events : List (Event (Exact f))) (rooms : List Room) (slots : Nat) (x : Bits) :
    K :=
  ∑ e : Fin events.length, ∑ r : Fin rooms.length, ∑ t ∈ range slots,
    if x.holds ((layoutFor events rooms slots).index e r t) then
      (events[e].preference r t).value else 0

/-- How much preferences can make a difference. -/
def totalPreference (events : List (Event (Exact f))) (rooms : List Room) (slots : Nat) : K :=
  ∑ e : Fin events.length, ∑ r : Fin rooms.length, ∑ t ∈ range slots,
    |(events[e].preference r t).value|

theorem satisfaction_le (events : List (Event (Exact f))) (rooms : List Room) (slots : Nat)
    (x y : Bits) :
    satisfaction events rooms slots x ≤
      satisfaction events rooms slots y + totalPreference events rooms slots := by
  unfold satisfaction totalPreference
  simp only [← sum_add_distrib]
  refine sum_le_sum fun e _ => sum_le_sum fun r _ => sum_le_sum fun t _ => ?_
  -- one place counts at most once more in `x` than in `y`
  have habove := le_abs_self (events[e].preference r t).value
  have hbelow := neg_abs_le (events[e].preference r t).value
  split_ifs <;> linarith [abs_nonneg (events[e].preference r t).value]

theorem quadratic_toQubo (hq : toQubo events rooms slots penalty = .ok q) :
    (layoutFor events rooms slots).Fits ∧ q.Fits ∧
      q.size = (layoutFor events rooms slots).total ∧
      ∀ x, q.quadratic x = penalty.value * breaches events rooms slots x -
        satisfaction events rooms slots x - penalty.value * events.length := by
  unfold toQubo at hq
  obtain ⟨⟨⟩, -, hchecked⟩ := bind_eq_ok_iff.mp hq
  obtain ⟨⟨⟩, -, hfill⟩ := bind_eq_ok_iff.mp hchecked
  have hbuilt (x : Bits) := quadratic_fillQubo (x := x)
    (rfl : (layoutFor events rooms slots).events = events.length) (liftFault_eq_ok_iff.mp hfill)
  refine ⟨(hbuilt []).1, (hbuilt []).2.1.fits, (hbuilt []).2.1.size, fun x => ?_⟩
  have hstanding : ∀ (e : Fin events.length) (r : Fin rooms.length),
      (events[e].overflowSquared rooms[r]).value = (events[e].standing rooms[r] : K) ^ 2 :=
    fun e r => (sq _).symm
  have hdistance : ∀ e : Fin events.length,
      (((layoutFor events rooms slots).load x e - 1 : ℤ).natAbs : K) ^ 2 =
        ((layoutFor events rooms slots).load x e - 1) ^ 2 := by
    intro e
    rw [Nat.cast_natAbs]
    push_cast
    exact sq_abs _
  have hquadratic : q.quadratic x =
      ∑ e : Fin events.length,
        eventCost (layoutFor events rooms slots) rooms penalty x e events[e] +
        penalty.value * ((layoutFor events rooms slots).counted x).conflicts := (hbuilt x).2.2
  have hslots : (layoutFor events rooms slots).slots = slots := rfl
  -- each event misses the square of its distance from one place by the constant
  rw [hquadratic]
  simp only [eventCost_eq (rfl : (layoutFor events rooms slots).rooms = rooms.length), breaches,
    satisfaction, hstanding, hslots]
  push_cast
  simp only [hdistance, sum_add_distrib, sum_sub_distrib, sum_neg_distrib, ← mul_sum, sum_const,
    card_univ, Fintype.card_fin, nsmul_eq_mul, mul_one]
  ring

/-! ## Results -/

/-- No breach is worth its penalty when there is a timetable to compare with. -/
theorem breaches_eq_zero (hq : toQubo events rooms slots penalty = .ok q)
    (hpenalty : totalPreference events rooms slots < penalty.value) {y : Bits}
    (hy : IsTimetable events rooms slots y) (hle : q.quadratic x ≤ q.quadratic y) :
    breaches events rooms slots x = 0 := by
  obtain ⟨hfits, -, -, henergy⟩ := quadratic_toQubo hq
  by_contra hbroken
  have hzero : breaches events rooms slots y = 0 := ((isTimetable_iff hfits).mp hy).2
  have hone : (1 : K) ≤ breaches events rooms slots x := by
    exact_mod_cast Nat.one_le_iff_ne_zero.mpr hbroken
  have hpos : 0 ≤ penalty.value := by
    have htotal : 0 ≤ totalPreference events rooms slots :=
      sum_nonneg fun e _ => sum_nonneg fun r _ => sum_nonneg fun t _ => abs_nonneg _
    exact htotal.trans hpenalty.le
  rw [henergy, henergy, hzero, Nat.cast_zero, mul_zero] at hle
  have hcost : penalty.value * 1 ≤ penalty.value * breaches events rooms slots x :=
    mul_le_mul_of_nonneg_left hone hpos
  -- the penalty weight would have to be made up for by preferences
  linarith [satisfaction_le events rooms slots x y]

/-- A penalty weight above the sum of all preferences is enough: if there is a timetable at all,
the bit vectors of least energy are the timetables that satisfy the events most. -/
theorem minimiser_isTimetable (events : List (Event (Exact f))) (rooms : List Room) (slots : Nat)
    (penalty : Exact f) (q : Qubo (Exact f)) (x : Bits)
    (hq : toQubo events rooms slots penalty = .ok q)
    (hpenalty : totalPreference events rooms slots < penalty.value)
    (hpossible : ∃ y, IsTimetable events rooms slots y) (hx : q.IsMinimiser x) :
    IsTimetable events rooms slots x ∧
      (∀ e : Fin events.length, ∃ r : Fin rooms.length, ∃ t < slots,
        x.holds ((layoutFor events rooms slots).index e r t) ∧
          events[e].attendees ≤ rooms[r].capacity) ∧
      ∀ y, IsTimetable events rooms slots y →
        satisfaction events rooms slots y ≤ satisfaction events rooms slots x := by
  obtain ⟨hfits, hstored, hsize, henergy⟩ := quadratic_toQubo hq
  obtain ⟨hlength, hleast⟩ := (isMinimiser_iff hstored).mp hx
  have hbelow : ∀ y, IsTimetable events rooms slots y → q.quadratic x ≤ q.quadratic y :=
    fun y hy => hleast y (((isTimetable_iff hfits).mp hy).1.trans hsize.symm)
  have hzero : breaches events rooms slots x = 0 := by
    obtain ⟨y, hy⟩ := hpossible
    exact breaches_eq_zero hq hpenalty hy (hbelow y hy)
  have htimetable : IsTimetable events rooms slots x :=
    (isTimetable_iff hfits).mpr ⟨hlength.trans hsize, hzero⟩
  refine ⟨htimetable, ?_, ?_⟩
  · intro e
    have hload := (breaches_eq_zero_iff.mp hzero).2.1 e e.isLt
    obtain ⟨r, hr, t, ht, hholds⟩ :=
      Layout.exists_place_of_load_pos (Nat.lt_of_lt_of_eq Nat.one_pos hload.symm)
    exact ⟨⟨r, hr⟩, t, ht, hholds, htimetable.seated e ⟨r, hr⟩ t ht hholds⟩
  · intro y hy
    have hle := hbelow y hy
    rw [henergy, henergy, hzero, ((isTimetable_iff hfits).mp hy).2] at hle
    linarith

/-- A room with seats for one of the crowded events, and one with seats for both. -/
def smallAndLarge : List Room := [{ capacity := 20 }, { capacity := 30 }]

/-- The larger event wishes for the smaller room. The penalty weight is more than the wish is worth,
so a minimiser lets everybody sit. -/
theorem minimiser_isTimetable_crowded : ∃ q x,
    toQubo crowdedEvents smallAndLarge 1 ⟨5⟩ = .ok q ∧
      totalPreference crowdedEvents smallAndLarge 1 < 5 ∧
      IsTimetable crowdedEvents smallAndLarge 1 [0, 1, 1, 0] ∧
      q.IsMinimiser x ∧
      IsTimetable crowdedEvents smallAndLarge 1 x ∧
      x.holds 0 = false := by
  have hbuilt : (toQubo crowdedEvents smallAndLarge 1 ⟨5⟩).toOption.isSome = true := by
    decide +kernel
  have hpenalty : totalPreference crowdedEvents smallAndLarge 1 < 5 := by
    decide +kernel
  have hpossible : IsTimetable crowdedEvents smallAndLarge 1 [0, 1, 1, 0] := by
    refine ⟨⟨⟨0, 0, 0⟩, rfl, rfl⟩, ?_⟩
    decide +kernel
  cases hq : toQubo crowdedEvents smallAndLarge 1 ⟨5⟩ with
  | error failure =>
    rw [hq] at hbuilt
    cases hbuilt
  | ok q =>
    obtain ⟨x, hx⟩ := exists_isMinimiser (quadratic_toQubo hq).2.1
    have hresult :=
      minimiser_isTimetable crowdedEvents smallAndLarge 1 ⟨5⟩ q x hq hpenalty ⟨_, hpossible⟩ hx
    refine ⟨q, x, rfl, hpenalty, hpossible, hx, hresult.1, ?_⟩
    -- two attendees would be left standing
    by_contra hholds
    have hseats := hresult.1.seated ⟨0, by decide⟩ ⟨0, by decide⟩ 0 Nat.one_pos
      (Bool.eq_true_of_not_eq_false hholds)
    exact absurd hseats (by decide)

end ThermalSearch.Timetable
