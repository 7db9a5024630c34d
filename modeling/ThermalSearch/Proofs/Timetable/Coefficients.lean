import ThermalSearch.Proofs.Model.Entries
import ThermalSearch.Proofs.Timetable.Decoding
import ThermalSearch.Timetable.Encoding

/-!
# The coefficients of the QUBO of a timetable

The loops that fill the QUBO make additions only, one after the other. Which ones is a matter of the
layout alone (`additions`), and no two of them are to the same pair of bits (`nodup_additions`): a bit
with itself, two bits of one event and two events at one place are different pairs, and each is come by
once. So every coefficient is zero and at most one cost, whatever the arithmetic (`priced_of_toQubo`).
-/

namespace ThermalSearch

/-! ## Writes to different entries -/

namespace Qubo

variable {α : Type} [Scalar α] {q : Qubo α}

theorem writeAll_append (q : Qubo α) (writes writes' : List (Write α)) :
    q.writeAll (writes ++ writes') = q.writeAll writes >>= fun q => q.writeAll writes' :=
  List.foldlM_append

omit [Scalar α] in
/-- Among writes to different entries there is one to each entry that is written to. -/
theorem filter_entry {writes : List (Write α)} (hnodup : (writes.map Write.entry).Nodup)
    {w : Write α} (hw : w ∈ writes) : writes.filter (·.entry = w.entry) = [w] := by
  induction writes with
  | nil => cases hw
  | cons first writes ih =>
    rw [List.map_cons, List.nodup_cons] at hnodup
    rcases List.mem_cons.mp hw with rfl | hw
    · have hothers : writes.filter (·.entry = w.entry) = [] := by
        rw [List.filter_eq_nil_iff]
        intro other hother hsame
        exact hnodup.1 (of_decide_eq_true hsame ▸ List.mem_map_of_mem hother)
      rw [List.filter_cons_of_pos (by simp), hothers]
    · have hother : first.entry ≠ w.entry := by
        intro hsame
        exact hnodup.1 (hsame ▸ List.mem_map_of_mem hw)
      rw [List.filter_cons_of_neg (by simpa using hother)]
      exact ih hnodup.2 hw

/-- Of writes to different entries each has its effect, and the other entries are left alone. -/
theorem Fits.of_writeAll_once (hfits : q.Fits) {writes : List (Write α)} {q' : Qubo α}
    (hwrites : ∀ w ∈ writes, w.InRange q.size) (hnodup : (writes.map Write.entry).Nodup)
    (h : q.writeAll writes = .ok q') :
    q'.size = q.size ∧ q'.Fits ∧
      (∀ i j, i < q.size → j < q.size → ∀ w ∈ writes, w.entry = s(i, j) →
        q'.coefficient i j = w.change (q.coefficient i j)) ∧
      ∀ i j, i < q.size → j < q.size → (∀ w ∈ writes, w.entry ≠ s(i, j)) →
        q'.coefficient i j = q.coefficient i j := by
  obtain ⟨q₁, hwritten, hsize, hfits', hcoefficient⟩ := hfits.writeAll_eq_ok hwrites
  cases h.symm.trans hwritten
  refine ⟨hsize, hfits', ?_, ?_⟩
  · intro i j hi hj w hw hentry
    rw [hcoefficient i j hi hj, ← hentry, filter_entry hnodup hw]
    rfl
  · intro i j hi hj hnone
    have hfilter : writes.filter (·.entry = s(i, j)) = [] := by
      rw [List.filter_eq_nil_iff]
      intro w hw hsame
      exact hnone w hw (of_decide_eq_true hsame)
    rw [hcoefficient i j hi hj, hfilter]
    rfl

end Qubo

namespace Timetable

open Qubo

/-! ## What the loops write -/

variable {α : Type} [Scalar α] {l : Layout} {rooms : List Room} {penalty : α} {q q' : Qubo α}

/-- What the bit of an event at a place costs for itself. -/
def ownCost (penalty : α) (event : Event α) (room : Room) (r t : Nat) : α :=
  -event.preference r t - penalty + penalty * event.overflowSquared room

/-- What is added for the bits of one event. -/
def placeAdditions (l : Layout) (rooms : List Room) (penalty : α) (index : Nat) (event : Event α) :
    List (Write α) :=
  rooms.zipIdx.flatMap fun (room, r) => (List.range l.slots).map fun t =>
    .add (l.index index r t) (l.index index r t) (ownCost penalty event room r t)

/-- One cost for each two bits of a range. -/
def pairAdditions (bit : Nat → Nat) (cost : α) (start stop : Nat) : List (Write α) :=
  (List.range' start (stop - start)).flatMap fun i =>
    (following i stop).map fun j => .add (bit i) (bit j) cost

/-- What is added for one event: for its bits, and for each two of them. -/
def eventAdditions (l : Layout) (rooms : List Room) (penalty : α) (p : Event α × Nat) :
    List (Write α) :=
  placeAdditions l rooms penalty p.2 p.1 ++
    pairAdditions id (2.0 * penalty) (p.2 * l.width) (p.2 * l.width + l.width)

/-- What is added for each two events at a place. -/
def conflictAdditions (l : Layout) (penalty : α) (p : Place) : List (Write α) :=
  pairAdditions (fun e => l.index e p.room p.slot) penalty 0 l.events

/-- All additions, event after event and then place after place. -/
def additions (l : Layout) (events : List (Event α)) (rooms : List Room) (penalty : α) :
    List (Write α) :=
  events.zipIdx.flatMap (eventAdditions l rooms penalty) ++
    l.places.flatMap (conflictAdditions l penalty)

theorem writeAll_of_addPlaces {index : Nat} {event : Event α}
    (h : addPlaces l rooms penalty index event q = .ok q') :
    q.writeAll (placeAdditions l rooms penalty index event) = .ok q' := by
  refine foldlM_flatMap ?_ h
  intro p _ q q' h
  refine foldlM_map ?_ h
  intro t _ q q' h
  obtain ⟨v, hv, h⟩ := bind_eq_ok_iff.mp h
  rw [Layout.of_bit_eq_ok hv] at h
  exact h

/-- A loop over the pairs of a range. -/
theorem writeAll_of_pairs {bit : Nat → Nat} {cost : α} {start stop : Nat}
    {body : Nat → Qubo α → Nat → Except Fault (Qubo α)}
    (hbody : ∀ i j q q', body i q j = .ok q' → q.add (bit i) (bit j) cost = .ok q')
    (h : (List.range' start (stop - start)).foldlM (fun q i => (following i stop).foldlM (body i) q)
      q = .ok q') : q.writeAll (pairAdditions bit cost start stop) = .ok q' := by
  refine foldlM_flatMap ?_ h
  intro i _ q q' h
  refine foldlM_map ?_ h
  intro j _ q q' h
  exact hbody i j q q' h

theorem writeAll_of_event {p : Event α × Nat}
    (h : (do
      let q ← addPlaces l rooms penalty p.2 p.1 q
      addChoices l penalty p.2 q) = .ok q') :
    q.writeAll (eventAdditions l rooms penalty p) = .ok q' := by
  obtain ⟨q₁, hplaces, h⟩ := bind_eq_ok_iff.mp h
  obtain ⟨⟨start, stop⟩, hrange, hchoices⟩ := bind_eq_ok_iff.mp h
  obtain ⟨rfl, rfl⟩ := Layout.of_eventRange_eq_ok hrange
  rw [eventAdditions, writeAll_append]
  exact bind_eq_ok_iff.mpr
    ⟨q₁, writeAll_of_addPlaces hplaces, writeAll_of_pairs (fun _ _ _ _ h => h) hchoices⟩

theorem writeAll_of_addConflicts {p : Place} (h : addConflicts l penalty q p = .ok q') :
    q.writeAll (conflictAdditions l penalty p) = .ok q' := by
  unfold addConflicts at h
  rw [List.range_eq_range'] at h
  refine writeAll_of_pairs ?_ h
  intro e₁ e₂ q q' h
  obtain ⟨v, hv, h⟩ := bind_eq_ok_iff.mp h
  obtain ⟨w, hw, h⟩ := bind_eq_ok_iff.mp h
  rw [Layout.of_bit_eq_ok hv, Layout.of_bit_eq_ok hw] at h
  exact h

theorem writeAll_of_fillQubo {events : List (Event α)} (hevents : l.events = events.length)
    (h : fillQubo l events rooms penalty = .ok q) :
    l.Fits ∧ ∃ q₀, zero l.total = .ok q₀ ∧
      q₀.writeAll (additions l events rooms penalty) = .ok q := by
  obtain ⟨n, hsize, hrest⟩ := bind_eq_ok_iff.mp h
  obtain ⟨q₀, hzero, hfill⟩ := bind_eq_ok_iff.mp hrest
  obtain ⟨hfits, rfl⟩ := Layout.size_eq_ok_iff.mp hsize
  refine ⟨hfits, q₀, hzero, ?_⟩
  cases events with
  | nil =>
    -- no two events are at a place
    have hnone : additions l [] rooms penalty = [] := by
      have hevents' : l.events = 0 := hevents
      simp [additions, conflictAdditions, pairAdditions, hevents']
    rw [hnone]
    exact hfill
  | cons event events =>
    obtain ⟨q₁, hevent, hplace⟩ := bind_eq_ok_iff.mp hfill
    rw [additions, writeAll_append]
    refine bind_eq_ok_iff.mpr ⟨q₁, foldlM_flatMap ?_ hevent, foldlM_flatMap ?_ hplace⟩
    · intro p _ q q' h
      exact writeAll_of_event h
    · intro p _ q q' h
      exact writeAll_of_addConflicts h

omit [Scalar α] in
theorem mem_pairs {bit : Nat → Nat} {cost : α} {start stop i j : Nat} (hstart : start ≤ i)
    (hij : i < j) (hstop : j < stop) :
    Write.add (bit i) (bit j) cost ∈ pairAdditions bit cost start stop := by
  refine List.mem_flatMap.mpr ⟨i, List.mem_range'_1.mpr ⟨hstart, by omega⟩, ?_⟩
  exact List.mem_map.mpr ⟨j, mem_following.mpr ⟨hij, hstop⟩, rfl⟩

/-! ## Each pair once -/

omit [Scalar α] in
theorem mem_map_entry_pairs {bit : Nat → Nat} {cost : α} {start stop : Nat} {x : Sym2 Nat} :
    x ∈ (pairAdditions bit cost start stop).map Write.entry ↔
      ∃ i j, start ≤ i ∧ i < j ∧ j < stop ∧ s(bit i, bit j) = x := by
  simp only [pairAdditions, List.map_flatMap, List.map_map, List.mem_flatMap, List.mem_map,
    List.mem_range'_1, mem_following, Function.comp_apply, Write.entry]
  constructor
  · rintro ⟨i, ⟨hstart, -⟩, j, ⟨hij, hj⟩, rfl⟩
    exact ⟨i, j, hstart, hij, hj, rfl⟩
  · rintro ⟨i, j, hstart, hij, hj, rfl⟩
    exact ⟨i, ⟨hstart, by omega⟩, j, ⟨hij, hj⟩, rfl⟩

omit [Scalar α] in
theorem nodup_pairs {bit : Nat → Nat} (hbit : Function.Injective bit) (cost : α)
    (start stop : Nat) : ((pairAdditions bit cost start stop).map Write.entry).Nodup := by
  rw [pairAdditions, List.map_flatMap, List.nodup_flatMap]
  constructor
  · intro i _
    have hrow : (following i stop).Nodup := List.nodup_range'
    rw [List.map_map]
    exact hrow.map fun j j' hsame => hbit (Sym2.congr_right.mp hsame)
  · have hrange : (List.range' start (stop - start)).Pairwise (· < ·) := List.pairwise_lt_range'
    refine hrange.imp ?_
    intro i i' hlt
    rw [Function.onFun, List.disjoint_left, List.map_map, List.map_map]
    intro x hx hx'
    obtain ⟨j, hj, rfl⟩ := List.mem_map.mp hx
    obtain ⟨j', hj', hsame⟩ := List.mem_map.mp hx'
    have hij := (mem_following.mp hj).1
    have hij' := (mem_following.mp hj').1
    -- either way round, the smaller bits would agree
    rcases Sym2.eq_iff.mp hsame with ⟨hfirst, -⟩ | ⟨hfirst, hsecond⟩
    · have hsmaller := hbit hfirst
      omega
    · have hsmaller := hbit hfirst
      have hlarger := hbit hsecond
      omega

/-- A bit with itself. -/
theorem map_entry_places (hrooms : l.rooms = rooms.length) (index : Nat) (event : Event α) :
    (placeAdditions l rooms penalty index event).map Write.entry =
      (l.block index).map Sym2.diag := by
  have hnumbers : rooms.zipIdx.map Prod.snd = List.range l.rooms := by
    rw [List.zipIdx_map_snd, hrooms, List.range_eq_range']
  rw [Layout.block_eq_map, Layout.places, ← hnumbers, placeAdditions]
  simp only [List.map_flatMap, List.flatMap_map, List.map_map]
  rfl

/-- What is added for an event is added to its bits. -/
theorem mem_block_of_entry (hrooms : l.rooms = rooms.length) {p : Event α × Nat} {x : Sym2 Nat}
    (hx : x ∈ (eventAdditions l rooms penalty p).map Write.entry) : ∀ v ∈ x, v ∈ l.block p.2 := by
  rw [eventAdditions, List.map_append, List.mem_append, map_entry_places hrooms,
    mem_map_entry_pairs] at hx
  intro v hv
  rcases hx with hx | ⟨i, j, hstart, hij, hstop, rfl⟩
  · obtain ⟨w, hw, rfl⟩ := List.mem_map.mp hx
    rcases Sym2.mem_iff.mp hv with rfl | rfl <;> exact hw
  · rcases Sym2.mem_iff.mp hv with rfl | rfl
    · exact List.mem_range'_1.mpr ⟨hstart, Nat.lt_trans hij hstop⟩
    · exact List.mem_range'_1.mpr ⟨Nat.le_trans hstart hij.le, hstop⟩

theorem eq_of_mem_block {e e' v : Nat} (h : v ∈ l.block e) (h' : v ∈ l.block e') : e = e' := by
  obtain ⟨p, hp, hplace⟩ := Layout.mem_block.mp h
  obtain ⟨p', hp', hplace'⟩ := Layout.mem_block.mp h'
  exact (Layout.index_injective hp hp' (hplace.trans hplace'.symm)).1

theorem nodup_eventAdditions (hrooms : l.rooms = rooms.length) (p : Event α × Nat) :
    ((eventAdditions l rooms penalty p).map Write.entry).Nodup := by
  have hblock : (l.block p.2).Nodup := List.nodup_range'
  rw [eventAdditions, List.map_append, List.nodup_append', map_entry_places hrooms]
  refine ⟨hblock.map Sym2.diag_injective, nodup_pairs Function.injective_id _ _ _, ?_⟩
  rw [List.disjoint_left]
  intro x hx hx'
  obtain ⟨v, -, rfl⟩ := List.mem_map.mp hx
  obtain ⟨i, j, -, hij, -, hsame⟩ := mem_map_entry_pairs.mp hx'
  have hdiag : i = j := Sym2.mk_isDiag_iff.mp (hsame ▸ Sym2.diag_isDiag v)
  omega

omit [Scalar α] in
theorem nodup_conflictAdditions {p : Place} (hp : p ∈ l.places) :
    ((conflictAdditions l penalty p).map Write.entry).Nodup :=
  nodup_pairs (fun _ _ hsame => (Layout.index_injective hp hp hsame).1) _ _ _

/-- No two additions are to the same pair of bits. -/
theorem nodup_additions (hrooms : l.rooms = rooms.length) (events : List (Event α)) :
    ((additions l events rooms penalty).map Write.entry).Nodup := by
  rw [additions, List.map_append, List.map_flatMap, List.map_flatMap, List.nodup_append',
    List.nodup_flatMap, List.nodup_flatMap]
  refine ⟨⟨fun p _ => nodup_eventAdditions hrooms p, ?_⟩,
    ⟨fun p hp => nodup_conflictAdditions hp, ?_⟩, ?_⟩
  · -- different events have different bits
    have hnumbers : (events.zipIdx.map Prod.snd).Nodup := by
      rw [List.zipIdx_map_snd]
      exact List.nodup_range'
    refine (List.pairwise_map.mp hnumbers).imp ?_
    intro p p' hne
    rw [Function.onFun, List.disjoint_left]
    intro x hx hx'
    induction x using Sym2.ind with
    | _ v w =>
      exact hne (eq_of_mem_block (mem_block_of_entry hrooms hx v (Sym2.mem_mk_left v w))
        (mem_block_of_entry hrooms hx' v (Sym2.mem_mk_left v w)))
  · -- and so have different places
    refine l.nodup_places.imp_of_mem ?_
    intro p p' hp hp' hne
    rw [Function.onFun, List.disjoint_left]
    intro x hx hx'
    obtain ⟨i, j, -, -, -, rfl⟩ := mem_map_entry_pairs.mp hx
    obtain ⟨i', j', -, -, -, hsame⟩ := mem_map_entry_pairs.mp hx'
    rcases Sym2.eq_iff.mp hsame with ⟨hfirst, -⟩ | ⟨hfirst, -⟩
    · exact hne (Layout.index_injective hp' hp hfirst).2.symm
    · exact hne (Layout.index_injective hp' hp hfirst).2.symm
  · -- two events at a place do not share their bits
    rw [List.disjoint_left]
    intro x hx hx'
    obtain ⟨p, -, hx⟩ := List.mem_flatMap.mp hx
    obtain ⟨place, hplace, hx'⟩ := List.mem_flatMap.mp hx'
    obtain ⟨i, j, -, hij, -, rfl⟩ := mem_map_entry_pairs.mp hx'
    have hbits := mem_block_of_entry hrooms hx
    have hfirst := eq_of_mem_block (hbits _ (Sym2.mem_mk_left _ _))
      (Layout.mem_block.mpr ⟨place, hplace, rfl⟩)
    have hsecond := eq_of_mem_block (hbits _ (Sym2.mem_mk_right _ _))
      (Layout.mem_block.mpr ⟨place, hplace, rfl⟩)
    omega

/-- All additions are to bits that there are. -/
theorem inRange_additions (hrooms : l.rooms = rooms.length) {events : List (Event α)}
    (hevents : l.events = events.length) :
    ∀ w ∈ additions l events rooms penalty, w.InRange l.total := by
  intro w hw v hv
  rcases List.mem_append.mp hw with hw | hw
  · obtain ⟨p, hp, hw⟩ := List.mem_flatMap.mp hw
    have hevent : p.2 < l.events := hevents ▸ (List.mem_zipIdx' hp).1
    exact Layout.lt_total_of_mem_block hevent
      (mem_block_of_entry hrooms (List.mem_map_of_mem hw) v hv)
  · obtain ⟨place, hplace, hw⟩ := List.mem_flatMap.mp hw
    obtain ⟨i, j, -, hij, hj, hentry⟩ := mem_map_entry_pairs.mp (List.mem_map_of_mem hw)
    obtain ⟨hroom, hslot⟩ := Layout.mem_places.mp hplace
    rw [← hentry] at hv
    rcases Sym2.mem_iff.mp hv with rfl | rfl
    · exact Layout.index_lt (Nat.lt_trans hij hj) hroom hslot
    · exact Layout.index_lt hj hroom hslot

/-! ## Which pairs are added to -/

theorem own_mem_additions {events : List (Event α)} {e r t : Nat} {event : Event α} {room : Room}
    (hevent : events[e]? = some event) (hroom : rooms[r]? = some room) (ht : t < l.slots) :
    .add (l.index e r t) (l.index e r t) (ownCost penalty event room r t) ∈
      additions l events rooms penalty := by
  refine List.mem_append_left _ ?_
  refine List.mem_flatMap.mpr ⟨(event, e), List.mk_mem_zipIdx_iff_getElem?.mpr hevent, ?_⟩
  refine List.mem_append_left _ ?_
  refine List.mem_flatMap.mpr ⟨(room, r), List.mk_mem_zipIdx_iff_getElem?.mpr hroom, ?_⟩
  exact List.mem_map.mpr ⟨t, List.mem_range.mpr ht, rfl⟩

theorem choice_mem_additions {events : List (Event α)} {e v w : Nat} (he : e < events.length)
    (hv : v ∈ l.block e) (hw : w ∈ l.block e) (hlt : v < w) :
    .add v w (2.0 * penalty) ∈ additions l events rooms penalty := by
  have hevent : events[e]? = some events[e] := List.getElem?_eq_getElem he
  refine List.mem_append_left _ ?_
  refine List.mem_flatMap.mpr ⟨(events[e], e), List.mk_mem_zipIdx_iff_getElem?.mpr hevent, ?_⟩
  refine List.mem_append_right _ ?_
  exact mem_pairs (List.mem_range'_1.mp hv).1 hlt (List.mem_range'_1.mp hw).2

theorem conflict_mem_additions {events : List (Event α)} {e e' : Nat} {p : Place}
    (hp : p ∈ l.places) (hlt : e < e') (he' : e' < l.events) :
    .add (l.index e p.room p.slot) (l.index e' p.room p.slot) penalty ∈
      additions l events rooms penalty :=
  List.mem_append_right _ (List.mem_flatMap.mpr ⟨p, hp, mem_pairs (Nat.zero_le e) hlt he'⟩)

/-- Nothing is added for two events at two places. -/
theorem entry_ne_of_mem_additions (hrooms : l.rooms = rooms.length) {events : List (Event α)}
    {e e' : Nat} {p p' : Place} (hp : p ∈ l.places) (hp' : p' ∈ l.places) (hevents : e ≠ e')
    (hplaces : p ≠ p') : ∀ w ∈ additions l events rooms penalty,
      w.entry ≠ s(l.index e p.room p.slot, l.index e' p'.room p'.slot) := by
  intro w hw hentry
  rcases List.mem_append.mp hw with hw | hw
  · -- the two bits would belong to one event
    obtain ⟨event, -, hw⟩ := List.mem_flatMap.mp hw
    have hbits := mem_block_of_entry hrooms (List.mem_map_of_mem hw)
    rw [hentry] at hbits
    have hfirst := eq_of_mem_block (hbits _ (Sym2.mem_mk_left _ _))
      (Layout.mem_block.mpr ⟨p, hp, rfl⟩)
    have hsecond := eq_of_mem_block (hbits _ (Sym2.mem_mk_right _ _))
      (Layout.mem_block.mpr ⟨p', hp', rfl⟩)
    exact hevents (hfirst.symm.trans hsecond)
  · -- or to one place
    obtain ⟨place, hplace, hw⟩ := List.mem_flatMap.mp hw
    obtain ⟨i, j, -, -, -, hsame⟩ := mem_map_entry_pairs.mp (List.mem_map_of_mem hw)
    rcases Sym2.eq_iff.mp (hsame.trans hentry) with ⟨hfirst, hsecond⟩ | ⟨hfirst, hsecond⟩
    · exact hplaces ((Layout.index_injective hplace hp hfirst).2.symm.trans
        (Layout.index_injective hplace hp' hsecond).2)
    · exact hplaces ((Layout.index_injective hplace hp hsecond).2.symm.trans
        (Layout.index_injective hplace hp' hfirst).2)

/-! ## Result -/

/-- The coefficient of two bits is zero and what they cost: a bit with itself, two bits of one event and
two events at one place. Other pairs of bits cost nothing. -/
structure Priced (l : Layout) (events : List (Event α)) (rooms : List Room) (penalty : α)
    (q : Qubo α) : Prop where
  layout : l.Fits
  fits : q.Fits
  size : q.size = l.total
  own : ∀ {e r t event room}, events[e]? = some event → rooms[r]? = some room → t < l.slots →
    q.coefficient (l.index e r t) (l.index e r t) = 0.0 + ownCost penalty event room r t
  choice : ∀ {e p p'}, e < l.events → p ∈ l.places → p' ∈ l.places → p ≠ p' →
    q.coefficient (l.index e p.room p.slot) (l.index e p'.room p'.slot) = 0.0 + 2.0 * penalty
  conflict : ∀ {e e' p}, e < l.events → e' < l.events → e ≠ e' → p ∈ l.places →
    q.coefficient (l.index e p.room p.slot) (l.index e' p.room p.slot) = 0.0 + penalty
  rest : ∀ {e e' p p'}, e < l.events → e' < l.events → e ≠ e' → p ∈ l.places → p' ∈ l.places →
    p ≠ p' → q.coefficient (l.index e p.room p.slot) (l.index e' p'.room p'.slot) = 0.0

theorem priced_of_fillQubo {events : List (Event α)} (hrooms : l.rooms = rooms.length)
    (hevents : l.events = events.length) (h : fillQubo l events rooms penalty = .ok q) :
    Priced l events rooms penalty q := by
  obtain ⟨hlayout, q₀, hzero, hwritten⟩ := writeAll_of_fillQubo hevents h
  obtain ⟨hsize₀, hfits₀, hblank⟩ := of_zero_eq_ok hzero
  obtain ⟨hsize, hfits, honce, hnone⟩ := hfits₀.of_writeAll_once
    (hsize₀ ▸ inRange_additions hrooms hevents) (nodup_additions hrooms events) hwritten
  have hbit : ∀ {e p}, e < l.events → p ∈ l.places → l.index e p.room p.slot < q₀.size := by
    intro e p he hp
    obtain ⟨hroom, hslot⟩ := Layout.mem_places.mp hp
    exact hsize₀ ▸ Layout.index_lt he hroom hslot
  -- what is added to a pair of bits, in either order
  have hadded : ∀ {v w i j : Nat} {cost : α}, v < q₀.size → w < q₀.size →
      .add i j cost ∈ additions l events rooms penalty → s(i, j) = s(v, w) →
      q.coefficient v w = 0.0 + cost := by
    intro v w i j cost hv hw hmem hpair
    rw [honce v w hv hw _ hmem hpair, hblank]
    rfl
  refine ⟨hlayout, hfits, hsize.trans hsize₀, ?_, ?_, ?_, ?_⟩
  · intro e r t event room hevent hroom ht
    have he : e < l.events := hevents ▸ (List.getElem?_eq_some_iff.mp hevent).1
    have hr : r < l.rooms := hrooms ▸ (List.getElem?_eq_some_iff.mp hroom).1
    have hplace : (⟨r, t⟩ : Place) ∈ l.places := Layout.mem_places.mpr ⟨hr, ht⟩
    exact hadded (hbit he hplace) (hbit he hplace) (own_mem_additions hevent hroom ht) rfl
  · intro e p p' he hp hp' hne
    have hv : l.index e p.room p.slot ∈ l.block e := Layout.mem_block.mpr ⟨p, hp, rfl⟩
    have hw : l.index e p'.room p'.slot ∈ l.block e := Layout.mem_block.mpr ⟨p', hp', rfl⟩
    have hdifferent : l.index e p.room p.slot ≠ l.index e p'.room p'.slot :=
      fun hsame => hne (Layout.index_injective hp hp' hsame).2
    rcases Nat.lt_or_gt_of_ne hdifferent with hlt | hgt
    · exact hadded (hbit he hp) (hbit he hp') (choice_mem_additions (hevents ▸ he) hv hw hlt) rfl
    · exact hadded (hbit he hp) (hbit he hp') (choice_mem_additions (hevents ▸ he) hw hv hgt)
        Sym2.eq_swap
  · intro e e' p he he' hne hp
    rcases Nat.lt_or_gt_of_ne hne with hlt | hgt
    · exact hadded (hbit he hp) (hbit he' hp) (conflict_mem_additions hp hlt he') rfl
    · exact hadded (hbit he hp) (hbit he' hp) (conflict_mem_additions hp hgt he) Sym2.eq_swap
  · intro e e' p p' he he' hne hp hp' hne'
    rw [hnone _ _ (hbit he hp) (hbit he' hp') (entry_ne_of_mem_additions hrooms hp hp' hne hne'),
      hblank]

theorem priced_of_toQubo {events : List (Event α)} {slots : Nat}
    (h : toQubo events rooms slots penalty = .ok q) :
    Priced (layoutFor events rooms slots) events rooms penalty q := by
  obtain ⟨⟨⟩, -, hchecked⟩ := bind_eq_ok_iff.mp h
  obtain ⟨⟨⟩, -, hfill⟩ := bind_eq_ok_iff.mp hchecked
  exact priced_of_fillQubo rfl rfl (liftFault_eq_ok_iff.mp hfill)

end Timetable

end ThermalSearch
