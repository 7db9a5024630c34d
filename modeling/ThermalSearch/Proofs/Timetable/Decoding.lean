import Mathlib.Algebra.Order.BigOperators.Group.List
import Mathlib.Data.Finset.Prod
import ThermalSearch.Proofs.Timetable.Counting

/-!
# Decoding a timetable

Bits and places name each other, a decoded timetable has the first place of every event, and what
is counted as wrong is wrong with the timetable that the bits describe:

* `bit_eq_ok`, `locate_eq_ok`, `exists_index`: indices and places, back and forth;
* `first_eq_some_iff`, `decode_eq_ok_iff`: what is decoded, and when there is a table for it;
* `conflicts_eq_card`: conflicts as choices of two events and a place;
* `isFeasible_iff`: bits without violations are those of an assignment of places.
-/

namespace ThermalSearch.Timetable.Layout

variable {l : Layout} {x : Bits} {event room slot : Nat} {p : Place}

/-! ## Indices and places -/

/-- Two places of the layout that share a bit are one, and belong to one event. -/
theorem index_injective {event' : Nat} {p' : Place} (hp : p ∈ l.places) (hp' : p' ∈ l.places)
    (h : l.index event p.room p.slot = l.index event' p'.room p'.slot) :
    event = event' ∧ p = p' := by
  obtain ⟨hroom, hslot⟩ := mem_places.mp hp
  obtain ⟨hroom', hslot'⟩ := mem_places.mp hp'
  obtain ⟨hrow, hslots⟩ := Table.offset_injective hslot hslot' h
  obtain ⟨hevents, hrooms⟩ := Table.offset_injective hroom hroom' hrow
  refine ⟨hevents, ?_⟩
  cases p
  cases p'
  exact congrArg₂ Place.mk hrooms hslots

theorem locate_eq_ok (hp : p ∈ l.places) :
    l.locate (l.index event p.room p.slot) = .ok (event, p) := by
  obtain ⟨hroom, hslot⟩ := mem_places.mp hp
  have hslots : 0 < l.slots := Nat.zero_lt_of_lt hslot
  have hrooms : 0 < l.rooms := Nat.zero_lt_of_lt hroom
  have hmod : l.index event p.room p.slot % l.slots = p.slot := by
    rw [index, Nat.mul_add_mod_self_right, Nat.mod_eq_of_lt hslot]
  have hdiv : l.index event p.room p.slot / l.slots = event * l.rooms + p.room := by
    rw [index, Nat.add_comm, Nat.add_mul_div_right _ _ hslots, Nat.div_eq_of_lt hslot, Nat.zero_add]
  have hevent : (event * l.rooms + p.room) / l.rooms = event := by
    rw [Nat.add_comm, Nat.add_mul_div_right _ _ hrooms, Nat.div_eq_of_lt hroom, Nat.zero_add]
  have hrest : (event * l.rooms + p.room) % l.rooms = p.room := by
    rw [Nat.mul_add_mod_self_right, Nat.mod_eq_of_lt hroom]
  unfold locate Word.mod Word.div
  rw [if_neg (Nat.ne_of_gt hslots), if_neg (Nat.ne_of_gt hslots), hmod, hdiv]
  simp only [bind, Except.bind, if_neg (Nat.ne_of_gt hrooms), hevent, hrest]
  rfl

/-- The bits of an event lie in the order of the places. -/
theorem block_eq_map (l : Layout) (event : Nat) :
    l.block event = l.places.map fun p => l.index event p.room p.slot := by
  have hrows : ∀ rooms, List.range (rooms * l.slots) =
      (List.range rooms).flatMap fun room => (List.range l.slots).map (room * l.slots + ·) := by
    intro rooms
    induction rooms with
    | zero => simp
    | succ rooms ih => simp [Nat.succ_mul, List.range_add, ih, List.range_succ]
  unfold block places width
  rw [List.range'_eq_map_range, hrows, List.map_flatMap, List.map_flatMap]
  simp only [List.map_map, Function.comp_def, index_eq, width]

theorem mem_block {v : Nat} :
    v ∈ l.block event ↔ ∃ p ∈ l.places, l.index event p.room p.slot = v := by
  rw [block_eq_map, List.mem_map]

/-- Every bit belongs to an event at a place. -/
theorem exists_index {v : Nat} (hv : v < l.total) :
    ∃ event < l.events, ∃ p ∈ l.places, l.index event p.room p.slot = v := by
  rw [total_eq] at hv
  have hwidth : 0 < l.width := Nat.pos_of_mul_pos_left (Nat.zero_lt_of_lt hv)
  refine ⟨v / l.width, Nat.div_lt_of_lt_mul (Nat.mul_comm _ _ ▸ hv), ?_⟩
  refine mem_block.mp (List.mem_range'_1.mpr ⟨Nat.div_mul_le_self v l.width, ?_⟩)
  exact Nat.lt_div_mul_add hwidth

/-- Later places have larger indices. -/
theorem pairwise_places (l : Layout) (event : Nat) : l.places.Pairwise fun p p' =>
    l.index event p.room p.slot < l.index event p'.room p'.slot := by
  rw [← List.pairwise_map, ← block_eq_map]
  exact List.pairwise_lt_range'

theorem nodup_places (l : Layout) : l.places.Nodup :=
  (l.pairwise_places 0).imp fun hlt heq => absurd (heq ▸ hlt) (Nat.lt_irrefl _)

/-! ## The first place of an event -/

/-- The first place that is set for an event. -/
def first (l : Layout) (x : Bits) (event : Nat) : Option Place :=
  l.places.find? fun p => x.holds (l.index event p.room p.slot)

/-- The place is set for the event, and none before it is: no other slot of the room before it,
and nothing in the rooms before. -/
structure IsFirst (l : Layout) (x : Bits) (event : Nat) (p : Place) : Prop where
  room : p.room < l.rooms
  slot : p.slot < l.slots
  holds : x.holds (l.index event p.room p.slot) = true
  before : ∀ room < l.rooms, ∀ slot < l.slots, room < p.room ∨ room = p.room ∧ slot < p.slot →
    x.holds (l.index event room slot) = false

/-- Places in the order of their indices. -/
theorem index_lt_index_iff {p' : Place} (hp : p ∈ l.places) (hp' : p' ∈ l.places) :
    l.index event p.room p.slot < l.index event p'.room p'.slot ↔
      p.room < p'.room ∨ p.room = p'.room ∧ p.slot < p'.slot := by
  have hslot := (mem_places.mp hp).2
  have hslot' := (mem_places.mp hp').2
  rw [index_eq, index_eq, Nat.add_lt_add_iff_left]
  rcases Nat.lt_trichotomy p.room p'.room with hlt | heq | hgt
  · have hnext : (p.room + 1) * l.slots ≤ p'.room * l.slots := Nat.mul_le_mul_right _ hlt
    rw [Nat.succ_mul] at hnext
    omega
  · rw [heq]
    omega
  · have hnext : (p'.room + 1) * l.slots ≤ p.room * l.slots := Nat.mul_le_mul_right _ hgt
    rw [Nat.succ_mul] at hnext
    omega

theorem first_eq_none_iff :
    l.first x event = none ↔
      ∀ room < l.rooms, ∀ slot < l.slots, x.holds (l.index event room slot) = false := by
  unfold first
  rw [List.find?_eq_none]
  constructor
  · intro hnone room hroom slot hslot
    exact Bool.eq_false_of_not_eq_true (hnone ⟨room, slot⟩ (mem_places.mpr ⟨hroom, hslot⟩))
  · intro hnone p hp
    have hplace := mem_places.mp hp
    rw [hnone p.room hplace.1 p.slot hplace.2]
    exact Bool.false_ne_true

theorem isFirst_of_first (h : l.first x event = some p) : l.IsFirst x event p := by
  obtain ⟨hholds, before, rest, hplaces, hbefore⟩ := List.find?_eq_some_iff_append.mp h
  have hp : p ∈ l.places := hplaces ▸ List.mem_append_right before List.mem_cons_self
  have hsorted := l.pairwise_places event
  refine ⟨(mem_places.mp hp).1, (mem_places.mp hp).2, hholds, ?_⟩
  intro room hroom slot hslot hlt
  have hp' : (⟨room, slot⟩ : Place) ∈ l.places := mem_places.mpr ⟨hroom, hslot⟩
  have hindex : l.index event room slot < l.index event p.room p.slot :=
    (index_lt_index_iff hp' hp).mpr hlt
  -- what has a smaller index stands before the place
  rw [hplaces, List.mem_append, List.mem_cons] at hp'
  rw [hplaces, List.pairwise_append, List.pairwise_cons] at hsorted
  rcases hp' with hearlier | rfl | hlater
  · simpa using hbefore _ hearlier
  · exact absurd hindex (Nat.lt_irrefl _)
  · exact absurd hindex (Nat.lt_asymm (hsorted.2.1.1 _ hlater))

theorem first_eq_some_iff : l.first x event = some p ↔ l.IsFirst x event p := by
  refine ⟨isFirst_of_first, fun hp => ?_⟩
  cases hfirst : l.first x event with
  | none =>
    have hunset := first_eq_none_iff.mp hfirst p.room hp.room p.slot hp.slot
    rw [hp.holds] at hunset
    cases hunset
  | some p' =>
    have hp' := isFirst_of_first hfirst
    have hmem : p ∈ l.places := mem_places.mpr ⟨hp.room, hp.slot⟩
    have hmem' : p' ∈ l.places := mem_places.mpr ⟨hp'.room, hp'.slot⟩
    -- neither of the two is before the other
    rcases Nat.lt_trichotomy (l.index event p.room p.slot) (l.index event p'.room p'.slot)
      with hlt | heq | hgt
    · have hunset := hp'.before _ hp.room _ hp.slot ((index_lt_index_iff hmem hmem').mp hlt)
      exact absurd hp.holds (Bool.not_eq_true _ ▸ hunset)
    · rw [(index_injective hmem hmem' heq).2]
    · have hunset := hp.before _ hp'.room _ hp'.slot ((index_lt_index_iff hmem' hmem).mp hgt)
      exact absurd hp'.holds (Bool.not_eq_true _ ▸ hunset)

theorem load_eq_zero_iff : l.load x event = 0 ↔ l.first x event = none := by
  unfold load first
  rw [block_eq_map, List.countP_map, List.countP_eq_zero, List.find?_eq_none]
  rfl

/-! ## Decoding -/

theorem getElem?_map_range_eq_some_iff {β : Type} {g : Nat → β} {n i : Nat} {b : β} :
    ((List.range n).map g)[i]? = some b ↔ i < n ∧ g i = b := by
  rw [List.getElem?_eq_some_iff]
  simp

theorem placeOf_eq_ok (hfits : l.Fits) (hevents : l.events < 2 ^ 64) (hx : x.length = l.total)
    (he : event < l.events) : l.placeOf x.toArray event = .ok (l.first x event) := by
  have hset : (l.block event).filter x.holds =
      (l.places.filter fun p => x.holds (l.index event p.room p.slot)).map
        fun p => l.index event p.room p.slot := by
    rw [block_eq_map, List.filter_map]
    rfl
  unfold placeOf
  rw [chosen_eq_ok hfits hevents hx he, hset, first, ← List.head?_filter]
  cases hplaces : l.places.filter fun p => x.holds (l.index event p.room p.slot) with
  | nil => rfl
  | cons p rest =>
    have hp : p ∈ l.places :=
      List.mem_of_mem_filter (hplaces ▸ List.mem_cons_self)
    show (l.locate _ >>= fun place => Except.ok (some place.2)) = _
    rw [locate_eq_ok hp]
    rfl

/-- Bits of the right number are decoded, if there can be a table of all events. -/
theorem decode_eq_ok_iff {α : Type} {places : List (Option Place)} (hfits : l.Fits)
    (hevents : l.events < 2 ^ 64) (hx : x.length = l.total) :
    (l.decode x : Except (Failure α) _) = .ok places ↔
      l.events * 24 < 2 ^ 63 ∧ places = (List.range l.events).map (l.first x) := by
  have hloop : (List.range l.events).mapM (l.placeOf x.toArray) =
      .ok ((List.range l.events).map (l.first x)) :=
    mapM_eq_ok fun event hevent => placeOf_eq_ok hfits hevents hx (List.mem_range.mp hevent)
  unfold decode
  simp only [bind_eq_ok_iff, liftFault_eq_ok_iff, liftRejection_eq_ok_iff, size_eq_ok_iff, hloop]
  constructor
  · rintro ⟨_, -, _, -, ⟨⟩, hreserve, hplaces⟩
    have hroom : l.events * 3 * 8 < 2 ^ 63 := Table.reserve_eq_ok_iff.mp hreserve
    exact ⟨by omega, (Except.ok.inj hplaces).symm⟩
  · rintro ⟨hroom, rfl⟩
    have hreserve : l.events * 3 * 8 < 2 ^ 63 := by omega
    exact ⟨_, ⟨hfits, rfl⟩, (), requireLength_eq_ok_iff.mpr hx.symm, (),
      Table.reserve_eq_ok_iff.mpr hreserve, rfl⟩

/-! ## Conflicts -/

open Finset

/-- Two events, the earlier one first, and the room and the slot they share. -/
def clashes (l : Layout) (x : Bits) : Finset (Nat × Nat × Nat × Nat) :=
  (range l.events ×ˢ range l.events ×ˢ range l.rooms ×ˢ range l.slots).filter
    fun (e₁, e₂, room, slot) => e₁ < e₂ ∧
      x.holds (l.index e₁ room slot) = true ∧ x.holds (l.index e₂ room slot) = true

theorem mem_clashes {e₁ e₂ : Nat} :
    (e₁, e₂, room, slot) ∈ l.clashes x ↔
      (e₁ < l.events ∧ e₂ < l.events ∧ room < l.rooms ∧ slot < l.slots) ∧ e₁ < e₂ ∧
        x.holds (l.index e₁ room slot) = true ∧ x.holds (l.index e₂ room slot) = true := by
  unfold clashes
  simp only [mem_filter, mem_product, mem_range]

theorem sum_chosen_eq (p : Nat → Bool) (n : Nat) :
    ∑ i ∈ range n, (if p i = true then 1 else 0) = (List.range n).countP p := by
  induction n with
  | zero => rfl
  | succ n ih => rw [sum_range_succ, ih, List.range_succ, List.countP_append, List.countP_singleton]

/-- Pairs of numbers below `n` that are both chosen. -/
theorem sum_pairs_eq (p : Nat → Bool) (n : Nat) :
    ∑ i ∈ range n, ∑ j ∈ range n, (if i < j ∧ p i = true ∧ p j = true then 1 else 0) =
      pairs ((List.range n).countP p) := by
  induction n with
  | zero => simp [pairs]
  | succ n ih =>
    -- the new number is the larger one of its pairs
    have hold : ∀ i ∈ range n,
        ∑ j ∈ range (n + 1), (if i < j ∧ p i = true ∧ p j = true then 1 else 0) =
          ∑ j ∈ range n, (if i < j ∧ p i = true ∧ p j = true then 1 else 0) +
            (if p i = true ∧ p n = true then 1 else 0) := by
      intro i hi
      rw [sum_range_succ]
      simp [mem_range.mp hi]
    have hnew : ∑ j ∈ range (n + 1), (if n < j ∧ p n = true ∧ p j = true then 1 else 0) = 0 :=
      sum_eq_zero fun j hj => if_neg fun h =>
        Nat.not_lt.mpr (Nat.lt_succ_iff.mp (mem_range.mp hj)) h.1
    rw [sum_range_succ, sum_congr rfl hold, hnew, sum_add_distrib, ih, List.range_succ,
      List.countP_append, List.countP_singleton]
    cases hn : p n with
    | false => simp
    | true =>
      simp only [and_true, if_true, sum_chosen_eq]
      exact (Nat.triangle_succ _).symm

theorem sum_places (g : Place → Nat) :
    (l.places.map g).sum = ∑ room ∈ range l.rooms, ∑ slot ∈ range l.slots, g ⟨room, slot⟩ := by
  unfold places
  simp only [sum_map_flatMap, List.map_map, sum_map_range, Function.comp_def]

theorem conflicts_eq_card : (l.counted x).conflicts = (l.clashes x).card := by
  unfold counted clashes
  rw [card_filter, sum_places]
  simp only [sum_product, crowd, ← sum_pairs_eq]
  -- places outside, pairs of events inside
  calc
    _ = ∑ room ∈ range l.rooms, ∑ e₁ ∈ range l.events, ∑ e₂ ∈ range l.events,
          ∑ slot ∈ range l.slots, (if e₁ < e₂ ∧ x.holds (l.index e₁ room slot) = true ∧
            x.holds (l.index e₂ room slot) = true then 1 else 0) := by
      refine sum_congr rfl fun room _ => ?_
      rw [sum_comm]
      exact sum_congr rfl fun e₁ _ => sum_comm
    _ = _ := by
      rw [sum_comm]
      exact sum_congr rfl fun e₁ _ => sum_comm

/-- With at most `2 ^ 32` bits, neither the ordered pairs of events at a place nor all conflicts
together exceed a word. -/
theorem conflicts_lt (htotal : l.total ≤ 2 ^ 32) :
    (∀ p ∈ l.places, l.crowd x p * (l.crowd x p - 1) < 2 ^ 64) ∧
      (l.counted x).conflicts < 2 ^ 64 := by
  have hcrowd (p : Place) : l.crowd x p ≤ l.events := by
    unfold crowd
    exact List.countP_le_length.trans_eq List.length_range
  have hlength : l.places.length = l.width := by
    have hblock : (l.block 0).length = l.width := List.length_range'
    rw [block_eq_map, List.length_map] at hblock
    exact hblock
  by_cases hwidth : l.width = 0
  · have hnone : l.places = [] := List.length_eq_zero_iff.mp (hlength.trans hwidth)
    refine ⟨fun p hp => absurd (hnone ▸ hp) List.not_mem_nil, ?_⟩
    rw [counted, hnone]
    exact Nat.two_pow_pos 64
  · -- then there are no more events than bits
    have hevents : l.events ≤ 2 ^ 32 := by
      refine Nat.le_trans ?_ htotal
      rw [total_eq]
      exact Nat.le_mul_of_pos_right _ (Nat.pos_of_ne_zero hwidth)
    have hone (p : Place) : l.crowd x p * (l.crowd x p - 1) ≤ l.events * (l.events - 1) :=
      Nat.mul_le_mul (hcrowd p) (Nat.sub_le_sub_right (hcrowd p) 1)
    have hpairs : ∀ n ∈ l.places.map fun p => pairs (l.crowd x p),
        n ≤ l.events * (l.events - 1) := by
      intro n hn
      obtain ⟨p, -, rfl⟩ := List.mem_map.mp hn
      exact (Nat.div_le_self _ 2).trans (hone p)
    have hall := List.sum_le_card_nsmul _ _ hpairs
    rw [List.length_map, hlength, smul_eq_mul, ← Nat.mul_assoc, Nat.mul_comm l.width,
      ← total_eq] at hall
    have hbound : 2 ^ 32 * (l.events - 1) < 2 ^ 64 := by omega
    refine ⟨fun p _ => ?_, ?_⟩
    · exact Nat.lt_of_le_of_lt ((hone p).trans (Nat.mul_le_mul_right _ hevents)) hbound
    · exact Nat.lt_of_le_of_lt (hall.trans (Nat.mul_le_mul_right _ htotal)) hbound

/-! ## Feasible bits -/

/-- A place for every event, no two the same, and the bits that are set are those of the events at
their places. -/
structure IsAssignment (l : Layout) (x : Bits) (a : List Place) : Prop where
  length : a.length = l.events
  inside : ∀ p ∈ a, p.room < l.rooms ∧ p.slot < l.slots
  nodup : a.Nodup
  holds_iff : ∀ v < l.total, x.holds v = true ↔
    ∃ event p, a[event]? = some p ∧ v = l.index event p.room p.slot

variable {a : List Place}

theorem IsAssignment.mem_places (ha : l.IsAssignment x a) (h : a[event]? = some p) :
    p ∈ l.places :=
  Layout.mem_places.mpr (ha.inside p (List.mem_of_getElem? h))

/-- The only bit of an event that is set is that of its place. -/
theorem IsAssignment.holds_index_iff (ha : l.IsAssignment x a) {p' : Place}
    (h : a[event]? = some p) (hp' : p' ∈ l.places) :
    x.holds (l.index event p'.room p'.slot) = true ↔ p' = p := by
  have hevent : event < l.events := ha.length ▸ (List.getElem?_eq_some_iff.mp h).1
  have hplace := Layout.mem_places.mp hp'
  rw [ha.holds_iff _ (index_lt hevent hplace.1 hplace.2)]
  constructor
  · rintro ⟨event', q, hq, hindex⟩
    obtain ⟨rfl, rfl⟩ := index_injective hp' (ha.mem_places hq) hindex
    exact Option.some.inj (hq.symm.trans h)
  · rintro rfl
    exact ⟨event, p', h, rfl⟩

theorem IsAssignment.first_eq (ha : l.IsAssignment x a) (h : a[event]? = some p) :
    l.first x event = some p := by
  cases hfirst : l.first x event with
  | none =>
    have hplace := ha.inside p (List.mem_of_getElem? h)
    have hunset := first_eq_none_iff.mp hfirst p.room hplace.1 p.slot hplace.2
    rw [(ha.holds_index_iff h (ha.mem_places h)).mpr rfl] at hunset
    cases hunset
  | some p' =>
    have hp' := isFirst_of_first hfirst
    exact congrArg some ((ha.holds_index_iff h
      (Layout.mem_places.mpr ⟨hp'.room, hp'.slot⟩)).mp hp'.holds)

/-- An event of which one place is set and no other has one bit. -/
theorem load_eq_one (hp : p ∈ l.places)
    (h : ∀ p' ∈ l.places, x.holds (l.index event p'.room p'.slot) = true ↔ p' = p) :
    l.load x event = 1 := by
  unfold load
  rw [block_eq_map, List.countP_map]
  calc
    _ = l.places.countP (· == p) := List.countP_congr fun p' hp' => by simpa using h p' hp'
    _ = 1 := List.count_eq_one_of_mem l.nodup_places hp

theorem IsAssignment.load_eq_one (ha : l.IsAssignment x a) (he : event < l.events) :
    l.load x event = 1 := by
  obtain ⟨p, hp⟩ : ∃ p, a[event]? = some p := ⟨_, List.getElem?_eq_getElem (ha.length ▸ he)⟩
  exact Layout.load_eq_one (ha.mem_places hp) fun p' hp' => ha.holds_index_iff hp hp'

theorem IsAssignment.clashes_eq_empty (ha : l.IsAssignment x a) : l.clashes x = ∅ := by
  refine eq_empty_of_forall_notMem ?_
  rintro ⟨e₁, e₂, room, slot⟩ h
  obtain ⟨⟨he₁, he₂, hroom, hslot⟩, hlt, hholds₁, hholds₂⟩ := mem_clashes.mp h
  have hplace : (⟨room, slot⟩ : Place) ∈ l.places := Layout.mem_places.mpr ⟨hroom, hslot⟩
  have hevent : ∀ e < l.events, x.holds (l.index e room slot) = true →
      a[e]? = some ⟨room, slot⟩ := by
    intro e he hholds
    obtain ⟨p, hp⟩ : ∃ p, a[e]? = some p := ⟨_, List.getElem?_eq_getElem (ha.length ▸ he)⟩
    rw [hp, ← (ha.holds_index_iff hp hplace).mp hholds]
  -- two events in one place are one
  have hsame := (hevent e₁ he₁ hholds₁).trans (hevent e₂ he₂ hholds₂).symm
  exact Nat.ne_of_lt hlt ((List.getElem?_inj (ha.length ▸ he₁) ha.nodup).mp hsame)

/-- An event with one bit has one place. -/
theorem eq_of_load_eq_one {p' : Place} (hload : l.load x event = 1) (hp : p ∈ l.places)
    (hp' : p' ∈ l.places) (hholds : x.holds (l.index event p.room p.slot) = true)
    (hholds' : x.holds (l.index event p'.room p'.slot) = true) : p = p' := by
  unfold load at hload
  rw [List.countP_eq_length_filter] at hload
  obtain ⟨v, hv⟩ := List.length_eq_one_iff.mp hload
  have hbit : ∀ q ∈ l.places, x.holds (l.index event q.room q.slot) = true →
      l.index event q.room q.slot = v := by
    intro q hq hset
    refine List.mem_singleton.mp (hv ▸ List.mem_filter.mpr ⟨?_, hset⟩)
    exact mem_block.mpr ⟨q, hq, rfl⟩
  exact (index_injective hp hp' ((hbit p hp hholds).trans (hbit p' hp' hholds').symm)).2

/-- When each event has one bit and no place two events, the first places are an assignment. -/
theorem exists_isAssignment (hloads : ∀ event < l.events, l.load x event = 1)
    (hclashes : l.clashes x = ∅) : ∃ a, l.IsAssignment x a := by
  have hfirst : ∀ event < l.events, ∃ p, l.IsFirst x event p := by
    intro event he
    refine Option.ne_none_iff_exists'.mp (fun hnone => ?_) |>.imp fun p => isFirst_of_first
    have hload := load_eq_zero_iff.mpr hnone
    rw [hloads event he] at hload
    cases hload
  have : Nonempty Place := ⟨⟨0, 0⟩⟩
  choose! place hplace using hfirst
  have hmem : ∀ event < l.events, place event ∈ l.places := fun event he =>
    mem_places.mpr ⟨(hplace event he).room, (hplace event he).slot⟩
  have hapart : ∀ e₁ < l.events, ∀ e₂ < l.events, e₁ < e₂ → place e₁ ≠ place e₂ := by
    intro e₁ he₁ e₂ he₂ hlt hsame
    have hclash : (e₁, e₂, (place e₁).room, (place e₁).slot) ∈ l.clashes x :=
      mem_clashes.mpr ⟨⟨he₁, he₂, (hplace e₁ he₁).room, (hplace e₁ he₁).slot⟩, hlt,
        (hplace e₁ he₁).holds, hsame ▸ (hplace e₂ he₂).holds⟩
    exact notMem_empty _ (hclashes ▸ hclash)
  refine ⟨(List.range l.events).map place, ?_, ?_, ?_, ?_⟩
  · rw [List.length_map, List.length_range]
  · intro p hp
    obtain ⟨event, hevent, rfl⟩ := List.mem_map.mp hp
    exact mem_places.mp (hmem event (List.mem_range.mp hevent))
  · refine List.Nodup.map_on ?_ List.nodup_range
    intro e₁ he₁ e₂ he₂ hsame
    by_contra hne
    rcases Nat.lt_or_gt_of_ne hne with hlt | hgt
    · exact hapart e₁ (List.mem_range.mp he₁) e₂ (List.mem_range.mp he₂) hlt hsame
    · exact hapart e₂ (List.mem_range.mp he₂) e₁ (List.mem_range.mp he₁) hgt hsame.symm
  · intro v hv
    constructor
    · intro hholds
      obtain ⟨event, he, p, hp, rfl⟩ := exists_index hv
      have hsame := eq_of_load_eq_one (hloads event he) (hmem event he) hp
        (hplace event he).holds hholds
      exact ⟨event, p, getElem?_map_range_eq_some_iff.mpr ⟨he, hsame⟩, rfl⟩
    · rintro ⟨event, p, hp, rfl⟩
      obtain ⟨he, rfl⟩ := getElem?_map_range_eq_some_iff.mp hp
      exact (hplace event he).holds

/-- Nothing is wrong with the bits exactly if they are those of an assignment. -/
theorem isFeasible_iff : (l.counted x).isFeasible = true ↔ ∃ a, l.IsAssignment x a := by
  rw [isFeasible_counted_iff, conflicts_eq_card, card_eq_zero]
  constructor
  · rintro ⟨hloads, hclashes⟩
    exact exists_isAssignment hloads hclashes
  · rintro ⟨a, ha⟩
    exact ⟨fun event he => ha.load_eq_one he, ha.clashes_eq_empty⟩

/-- A place that is decoded for each event of an assignment is the event's own. -/
theorem IsAssignment.map_first (ha : l.IsAssignment x a) :
    (List.range l.events).map (l.first x) = a.map some := by
  refine List.ext_getElem (by simp [ha.length]) fun event he he' => ?_
  rw [List.getElem_map, List.getElem_map, List.getElem_range]
  exact ha.first_eq (List.getElem?_eq_getElem (by simpa using he'))

/-- Every event of an assignment has a bit of its own. -/
theorem IsAssignment.events_le (ha : l.IsAssignment x a) : l.events ≤ l.total := by
  by_cases hevents : l.events = 0
  · omega
  · have hload := ha.load_eq_one (Nat.pos_of_ne_zero hevents)
    have hbits : l.total ≠ 0 := fun hbits => by
      rw [load_eq_zero hbits (Nat.pos_of_ne_zero hevents)] at hload
      cases hload
    rw [total_eq] at hbits ⊢
    exact Nat.le_mul_of_pos_right _ (Nat.pos_of_ne_zero (Nat.mul_ne_zero_iff.mp hbits).2)

/-! ## Result -/

/-- In a layout of at most `2 ^ 32` bits, places and indices name each other, and an event owns the
bits of its places. Bits of the right number are judged without an error, whatever they are, and
decoded if a table of all events can exist. Then each event gets the first place that is set for
it, the unassigned events are those without one, conflicts are the choices of two events and a
place they share, none of the counts exceeds a word, and the feasible bits are those of the
assignments, which are decoded to themselves. -/
theorem decode_and_violations {α : Type} (l : Layout) (n : Nat) (x : Bits)
    (hevents : l.events < 2 ^ 64) (hsize : l.size = .ok n) (hn : n ≤ 2 ^ 32)
    (hx : x.length = n) :
    (∀ event < l.events, ∀ room < l.rooms, ∀ slot < l.slots,
      l.index event room slot < n ∧ l.bit event room slot = .ok (l.index event room slot) ∧
      l.locate (l.index event room slot) = .ok (event, ⟨room, slot⟩)) ∧
    (∀ v < n, ∃ event < l.events, ∃ room < l.rooms, ∃ slot < l.slots,
      l.locate v = .ok (event, ⟨room, slot⟩) ∧ l.bit event room slot = .ok v) ∧
    (∀ event < l.events, ∃ start stop, l.eventRange event = .ok (start, stop) ∧
      ∀ v, start ≤ v ∧ v < stop ↔
        ∃ room < l.rooms, ∃ slot < l.slots, l.bit event room slot = .ok v) ∧
    ∃ judged, (l.violations x : Except (Failure α) Violations) = .ok judged ∧
      ((∃ places, (l.decode x : Except (Failure α) _) = .ok places) ↔ l.events * 24 < 2 ^ 63) ∧
      (∀ places, (l.decode x : Except (Failure α) _) = .ok places →
        places.length = l.events ∧
        (∀ event < l.events,
          (∀ p, places[event]? = some (some p) ↔ l.IsFirst x event p) ∧
          (places[event]? = some none ↔ ∀ room < l.rooms, ∀ slot < l.slots,
            x.holds (l.index event room slot) = false)) ∧
        judged.unassigned = places.countP fun choice => choice.isNone) ∧
      judged.conflicts = (l.clashes x).card ∧
      (∀ p ∈ l.places, l.crowd x p * (l.crowd x p - 1) < 2 ^ 64) ∧ judged.conflicts < 2 ^ 64 ∧
      (judged.isFeasible = true ↔ ∃ a, l.IsAssignment x a) ∧
      ∀ a, l.IsAssignment x a → (l.decode x : Except (Failure α) _) = .ok (a.map some) := by
  obtain ⟨hfits, rfl⟩ := size_eq_ok_iff.mp hsize
  have hbit : ∀ event < l.events, ∀ room < l.rooms, ∀ slot < l.slots,
      l.bit event room slot = .ok (l.index event room slot) :=
    fun event he room hroom slot hslot => bit_eq_ok hfits he hroom hslot
  have hdecode : ∀ places, (l.decode x : Except (Failure α) _) = .ok places ↔
      l.events * 24 < 2 ^ 63 ∧ places = (List.range l.events).map (l.first x) :=
    fun places => decode_eq_ok_iff hfits hevents hx
  refine ⟨?_, ?_, ?_, l.counted x, violations_eq_counted hfits hx, ?_, ?_, conflicts_eq_card,
    (conflicts_lt hn).1, (conflicts_lt hn).2, isFeasible_iff, ?_⟩
  · intro event he room hroom slot hslot
    refine ⟨index_lt he hroom hslot, hbit event he room hroom slot hslot, ?_⟩
    exact locate_eq_ok (p := ⟨room, slot⟩) (mem_places.mpr ⟨hroom, hslot⟩)
  · intro v hv
    obtain ⟨event, he, ⟨room, slot⟩, hp, rfl⟩ := exists_index hv
    obtain ⟨hroom, hslot⟩ := mem_places.mp hp
    exact ⟨event, he, room, hroom, slot, hslot, locate_eq_ok hp,
      hbit event he room hroom slot hslot⟩
  · intro event he
    refine ⟨_, _, eventRange_eq_ok hfits hevents he, fun v => ?_⟩
    rw [← List.mem_range'_1, ← block, mem_block]
    constructor
    · rintro ⟨p, hp, rfl⟩
      obtain ⟨hroom, hslot⟩ := mem_places.mp hp
      exact ⟨p.room, hroom, p.slot, hslot, hbit event he p.room hroom p.slot hslot⟩
    · rintro ⟨room, hroom, slot, hslot, hv⟩
      exact ⟨⟨room, slot⟩, mem_places.mpr ⟨hroom, hslot⟩, (of_bit_eq_ok hv).symm⟩
  · constructor
    · rintro ⟨places, hplaces⟩
      exact ((hdecode places).mp hplaces).1
    · intro hroom
      exact ⟨_, (hdecode _).mpr ⟨hroom, rfl⟩⟩
  · intro places hplaces
    obtain ⟨-, rfl⟩ := (hdecode places).mp hplaces
    refine ⟨by simp, fun event he => ⟨fun p => ?_, ?_⟩, ?_⟩
    · rw [getElem?_map_range_eq_some_iff, first_eq_some_iff, and_iff_right he]
    · rw [getElem?_map_range_eq_some_iff, first_eq_none_iff, and_iff_right he]
    · unfold counted
      rw [List.countP_map]
      refine List.countP_congr fun event _ => ?_
      rw [beq_iff_eq, load_eq_zero_iff, Function.comp_apply, Option.isNone_iff_eq_none]
  · intro a ha
    have hle := ha.events_le
    exact (hdecode _).mpr ⟨by omega, ha.map_first.symm⟩

/-- Three events in two rooms at two slots: the first one has two places, of which the second one
has the later, and the third one has none. -/
def overlapping : Bits := [1, 0, 0, 7, 0, 0, 0, 1, 0, 0, 0, 0]

theorem decode_and_violations_overlapping :
    ∃ judged places, (Layout.mk 3 2 2).violations overlapping =
        (.ok judged : Except (Failure Float) _) ∧
      (Layout.mk 3 2 2).decode overlapping = (.ok places : Except (Failure Float) _) ∧
      places = [some ⟨0, 0⟩, some ⟨1, 1⟩, none] ∧
      judged.unassigned = places.countP (fun choice => choice.isNone) ∧
      judged.conflicts = ((Layout.mk 3 2 2).clashes overlapping).card ∧
      (0, 1, 1, 1) ∈ (Layout.mk 3 2 2).clashes overlapping ∧
      ¬ ∃ a, (Layout.mk 3 2 2).IsAssignment overlapping a := by
  obtain ⟨-, -, -, judged, hjudged, hroom, hplaces, hconflicts, -, -, hfeasible, -⟩ :=
    decode_and_violations (α := Float) (Layout.mk 3 2 2) 12 overlapping (by decide) rfl (by decide)
      rfl
  obtain ⟨places, hdecode⟩ := hroom.mpr (by decide)
  refine ⟨judged, places, hjudged, hdecode, ?_, (hplaces places hdecode).2.2, hconflicts,
    by decide, ?_⟩
  · cases hdecode
    rfl
  · rw [← hfeasible]
    cases hjudged
    decide

/-- There are no bits, but so many events that there is no table of their places. -/
theorem no_decode_vast :
    (Layout.mk (2 ^ 60) 1 0).events < 2 ^ 64 ∧ (Layout.mk (2 ^ 60) 1 0).size = .ok 0 ∧
      ([] : Bits).length = 0 ∧
      ¬ ∃ places, (Layout.mk (2 ^ 60) 1 0).decode [] = (.ok places : Except (Failure Float) _) := by
  have hsize : (Layout.mk (2 ^ 60) 1 0).size = .ok 0 := rfl
  refine ⟨by decide, hsize, rfl, ?_⟩
  rintro ⟨places, hplaces⟩
  have hroom := ((decode_eq_ok_iff (size_eq_ok_iff.mp hsize).1 (by decide) rfl).mp hplaces).1
  exact absurd hroom (by decide)

end ThermalSearch.Timetable.Layout
