import ThermalSearch.Proofs.Model.FiniteSpinModel
import ThermalSearch.Proofs.Solver.QuboGuarantee
import ThermalSearch.Proofs.Timetable.Coefficients
import ThermalSearch.Proofs.Timetable.RoomAssignment

/-!
# When the QUBO of a timetable is finite

The checks of a timetable look at every weight by itself, but a coefficient is made of several. The
wishes for a place are added up, and may leave the range of floats although each weight is in it; so may
twice the penalty weight, and its product with a number of attendees. Such a timetable passes, its QUBO
is no use to a search, and this is found out only when a search refuses it (`greedy_refused`). The
encoding over rooms checks its fields as it computes them and refuses the timetable itself.

Since every coefficient is zero and at most one cost, the QUBO is finite exactly when the costs are
(`Priced.isFinite_iff`). They are for wishes and penalty weights that are not near the end of the range
(`isFinite_ownCost`).
-/

namespace ThermalSearch.Timetable

open Binary64 Qubo

/-! ## Finite coefficients -/

/-- Nothing brings an infinite cost back. -/
theorem isFinite_zero_add_iff {x : Float} : (0.0 + x).isFinite ↔ x.isFinite := by
  constructor
  · intro hsum
    by_contra hx
    rcases not_finite_cases hx with ⟨s, rfl⟩ | hundefined
    · rw [add_infinite (by rfl)] at hsum
      exact hx hsum
    · have hsum' : (0.0 + x).toModel.unpack.isFinite = true := hsum
      rw [unpack_of_isNaN (isNaN_add hundefined)] at hsum'
      cases hsum'
  · intro hx
    refine (isRounded_add (by rfl) hx).finite ?_
    rw [value_zero, zero_add]
    exact abs_value_le_greatest hx

/-- There are two places to choose from. -/
theorem exists_places_iff {l : Layout} :
    (∃ p ∈ l.places, ∃ p' ∈ l.places, p ≠ p') ↔ 2 ≤ l.width := by
  have hlength : l.places.length = l.width := by
    have hblock : (l.block 0).length = l.width := List.length_range'
    rwa [Layout.block_eq_map, List.length_map] at hblock
  rw [← hlength, ← List.toFinset_card_of_nodup l.nodup_places]
  refine Iff.trans ?_ Finset.one_lt_card.symm
  simp only [List.mem_toFinset]

section

variable {l : Layout} {events : List (Event Float)} {rooms : List Room} {penalty : Float}
  {q : Qubo Float}

theorem Priced.isFinite_iff (hq : Priced l events rooms penalty q) (hevents : l.events = events.length)
    (hrooms : l.rooms = rooms.length) (hpenalty : Positive penalty) :
    q.isFinite = true ↔
      (∀ (e r t : Nat) event room, events[e]? = some event → rooms[r]? = some room → t < l.slots →
        (ownCost penalty event room r t).isFinite) ∧
      (0 < l.events → 2 ≤ l.width → value penalty < 2 ^ 1023) := by
  have hdouble : (2.0 * penalty).isFinite ↔ value penalty < 2 ^ 1023 := by
    have hrounded := isRounded_mul (x := 2.0) (by rfl) hpenalty.finite
    rw [value_two] at hrounded
    exact hrounded.isFinite_double_iff hpenalty.finite hpenalty.pos
  rw [← hdouble]
  constructor
  · intro hfinite
    have hentry : ∀ i j, i < l.total → j < l.total → (q.coefficient i j).isFinite := by
      intro i j hi hj
      exact isFinite_coefficient hq.fits hfinite (hq.size ▸ hi) (hq.size ▸ hj)
    constructor
    · intro e r t event room hevent hroom ht
      have he : e < l.events := hevents ▸ (List.getElem?_eq_some_iff.mp hevent).1
      have hr : r < l.rooms := hrooms ▸ (List.getElem?_eq_some_iff.mp hroom).1
      have hown := hentry _ _ (Layout.index_lt he hr ht) (Layout.index_lt he hr ht)
      rw [hq.own hevent hroom ht] at hown
      exact isFinite_zero_add_iff.mp hown
    · intro he hplaces
      obtain ⟨p, hp, p', hp', hne⟩ := exists_places_iff.mpr hplaces
      obtain ⟨hr, ht⟩ := Layout.mem_places.mp hp
      obtain ⟨hr', ht'⟩ := Layout.mem_places.mp hp'
      have hchoice := hentry _ _ (Layout.index_lt he hr ht) (Layout.index_lt he hr' ht')
      rw [hq.choice he hp hp' hne] at hchoice
      exact isFinite_zero_add_iff.mp hchoice
  · rintro ⟨hown, hchoice⟩
    rw [Qubo.isFinite_iff hq.fits, hq.size]
    intro i j hij hj
    obtain ⟨e, he, p, hp, rfl⟩ := Layout.exists_index (Nat.lt_of_le_of_lt hij hj)
    obtain ⟨e', he', p', hp', rfl⟩ := Layout.exists_index hj
    -- the rule that the two bits fall under
    by_cases hsame : e = e'
    · subst hsame
      by_cases hplace : p = p'
      · subst hplace
        obtain ⟨hr, ht⟩ := Layout.mem_places.mp hp
        obtain ⟨event, hevent⟩ : ∃ event, events[e]? = some event :=
          ⟨_, List.getElem?_eq_getElem (hevents ▸ he)⟩
        obtain ⟨room, hroom⟩ : ∃ room, rooms[p.room]? = some room :=
          ⟨_, List.getElem?_eq_getElem (hrooms ▸ hr)⟩
        rw [hq.own hevent hroom ht]
        exact isFinite_zero_add_iff.mpr (hown e p.room p.slot event room hevent hroom ht)
      · rw [hq.choice he hp hp' hplace]
        refine isFinite_zero_add_iff.mpr (hchoice (Nat.zero_lt_of_lt he) ?_)
        exact exists_places_iff.mp ⟨p, hp, p', hp', hplace⟩
    · by_cases hplace : p = p'
      · subst hplace
        rw [hq.conflict he he' hsame hp]
        exact isFinite_zero_add_iff.mpr hpenalty.finite
      · rw [hq.rest he he' hsame hp hp' hplace]
        rfl

end

/-! ## Costs in range -/

section

variable {event : Event Float} {room : Room} {penalty : Float} {r t : Nat}

/-- The wishes of an event by their sizes. -/
noncomputable def Event.wishWeight (event : Event Float) : ℝ :=
  (event.wishes.map fun w => |value w.weight|).sum

/-- The wishes for one place are some of the wishes. -/
theorem within_preference (hwishes : ∀ w ∈ event.wishes, w.weight.isFinite)
    (hweight : event.wishWeight ≤ 2 ^ (1020 : ℤ)) :
    Within (2 ^ (1021 : ℤ)) (event.preference r t) := by
  have hplace : ∀ x ∈ (event.wishes.filter fun w => w.room == r && w.slot == t).map (·.weight),
      x.isFinite := by
    intro x hx
    obtain ⟨w, hw, rfl⟩ := List.mem_map.mp hx
    exact hwishes w (List.mem_of_mem_filter hw)
  have hpart : (((event.wishes.filter fun w => w.room == r && w.slot == t).map (·.weight)).map
      fun x => |value x|).sum ≤ event.wishWeight := by
    rw [List.map_map]
    refine (List.filter_sublist.map _).sum_le_sum ?_
    intro size hsize
    obtain ⟨w, -, rfl⟩ := List.mem_map.mp hsize
    exact abs_nonneg _
  have hdouble : (2 : ℝ) ^ (1021 : ℤ) = 0 + 2 * 2 ^ (1020 : ℤ) := by
    rw [zero_add, ← zpow_one_add₀ two_ne_zero]
    norm_num
  have hbound := add_le_add_right (mul_le_mul_of_nonneg_left (hpart.trans hweight) zero_le_two) 0
  rw [← hdouble] at hbound
  exact (within_foldl_add hplace within_zero.neg
    (hbound.trans (zpow_lt_greatest (by norm_num)).le)).mono hbound

/-- As many attendees as a count of 32 bits can have. -/
theorem within_overflowSquared (hattendees : event.attendees < 2 ^ 32) :
    Within (2 ^ (64 : ℤ)) (event.overflowSquared room) := by
  have hfew : event.attendees - room.capacity < 2 ^ 32 := by omega
  obtain ⟨hfinite, hvalue⟩ := value_ofNat (Nat.lt_trans hfew (by norm_num))
  refine (isRounded_mul hfinite hfinite).within_zpow ?_ (by norm_num) (by norm_num)
  have hroot : ((event.attendees - room.capacity : Nat) : ℝ) ≤ 2 ^ (32 : ℤ) := by
    exact_mod_cast hfew.le
  have hsquare : (2 : ℝ) ^ (64 : ℤ) = 2 ^ (32 : ℤ) * 2 ^ (32 : ℤ) := by
    rw [← zpow_add₀ two_ne_zero]
    norm_num
  rw [hvalue, abs_mul, Nat.abs_cast, hsquare]
  gcongr

/-- Costs are finite if the wishes and the penalty weight are not near the end of the range. -/
theorem isFinite_ownCost (hpenalty : Positive penalty) (hsmall : value penalty ≤ 2 ^ (958 : ℤ))
    (hattendees : event.attendees < 2 ^ 32) (hwishes : ∀ w ∈ event.wishes, w.weight.isFinite)
    (hweight : event.wishWeight ≤ 2 ^ (1020 : ℤ)) : (ownCost penalty event room r t).isFinite := by
  have hsize : |value penalty| ≤ 2 ^ (958 : ℤ) := by
    rwa [abs_of_pos hpenalty.pos]
  have hwished : Within (2 ^ (1021 : ℤ)) (-event.preference r t) :=
    (within_preference hwishes hweight).neg
  have hoverflow : Within (2 ^ (64 : ℤ)) (event.overflowSquared room) :=
    within_overflowSquared hattendees
  -- every operation stays below a power of two, and what it is rounded to does so with it
  have hearned : Within (2 ^ (1022 : ℤ)) (-event.preference r t - penalty) := by
    refine (isRounded_sub hwished.finite hpenalty.finite).within_zpow ?_ (by norm_num) (by norm_num)
    calc |value (-event.preference r t) - value penalty|
        ≤ |value (-event.preference r t)| + |value penalty| := abs_sub _ _
      _ ≤ 2 ^ (1021 : ℤ) + 2 ^ (958 : ℤ) := add_le_add hwished.le hsize
      _ ≤ 2 ^ (1021 : ℤ) + 2 ^ (1021 : ℤ) := by gcongr <;> norm_num
      _ = 2 ^ (1022 : ℤ) := by
        rw [← two_mul, ← zpow_one_add₀ two_ne_zero]
        norm_num
  have hseats : Within (2 ^ (1022 : ℤ)) (penalty * event.overflowSquared room) := by
    refine (isRounded_mul hpenalty.finite hoverflow.finite).within_zpow ?_ (by norm_num)
      (by norm_num)
    calc |value penalty * value (event.overflowSquared room)|
        = |value penalty| * |value (event.overflowSquared room)| := abs_mul _ _
      _ ≤ 2 ^ (958 : ℤ) * 2 ^ (64 : ℤ) := by
        gcongr
        exact hoverflow.le
      _ = 2 ^ (1022 : ℤ) := by
        rw [← zpow_add₀ two_ne_zero]
        norm_num
  have htotal : |value (-event.preference r t - penalty) +
      value (penalty * event.overflowSquared room)| ≤ 2 ^ (1023 : ℤ) := by
    calc |value (-event.preference r t - penalty) + value (penalty * event.overflowSquared room)|
        ≤ |value (-event.preference r t - penalty)| +
          |value (penalty * event.overflowSquared room)| := abs_add_le _ _
      _ ≤ 2 ^ (1022 : ℤ) + 2 ^ (1022 : ℤ) := add_le_add hearned.le hseats.le
      _ = 2 ^ (1023 : ℤ) := by
        rw [← two_mul, ← zpow_one_add₀ two_ne_zero]
        norm_num
  exact (isRounded_add hearned.finite hseats.finite).finite
    (htotal.trans (zpow_lt_greatest (by norm_num)).le)

end

/-! ## Result -/

/-- A timetable that passes has a QUBO with finite coefficients exactly when what the bits cost for
themselves is finite and, if an event has two places to choose from, twice the penalty weight is. This is
so for any number of attendees that can be counted in 32 bits if the penalty weight is at most `2 ^ 958`
and no event wishes for more than `2 ^ 1020` in all. A search whose settings pass rejects the QUBO
exactly when it is not finite, and for that reason only. -/
theorem isFinite_toQubo (events : List (Event Float)) (rooms : List Room) (slots : Nat)
    (penalty : Float) (q : Qubo Float) (h : toQubo events rooms slots penalty = .ok q) :
    (q.isFinite = true ↔
      (∀ (e r t : Nat) event room, events[e]? = some event → rooms[r]? = some room → t < slots →
        (ownCost penalty event room r t).isFinite) ∧
      (0 < events.length → 2 ≤ rooms.length * slots → value penalty < 2 ^ 1023)) ∧
    (value penalty ≤ 2 ^ (958 : ℤ) →
      (∀ event ∈ events, event.attendees < 2 ^ 32 ∧ event.wishWeight ≤ 2 ^ (1020 : ℤ)) →
      q.isFinite = true) ∧
    (∀ config : Annealing.Config Float, config.validate = .ok () → ∀ cause,
      (Solver.annealQubo q config = .error (.rejected cause) ↔
        cause = .matrixNotFinite ∧ q.isFinite = false)) ∧
    ∀ config : Tempering.Config Float, config.validate = .ok () → ∀ cause,
      (Solver.temperQubo q config = .error (.rejected cause) ↔
        cause = .matrixNotFinite ∧ q.isFinite = false) := by
  obtain ⟨⟨⟩, hchecked, hrest⟩ := bind_eq_ok_iff.mp h
  obtain ⟨⟨⟩, hwishes, -⟩ := bind_eq_ok_iff.mp hrest
  have hpenalty : Positive penalty := by
    have hpassed := liftRejection_eq_ok_iff.mp hchecked
    unfold validatePenalty at hpassed
    rw [check_eq_ok_iff, requireFinite_eq_ok_iff, refuseIf_eq_ok_iff,
      decide_eq_false_iff_not] at hpassed
    exact positive_of_accepted hpassed.1 hpassed.2
  have hfinite := (priced_of_toQubo h).isFinite_iff rfl rfl hpenalty
  -- in range the costs are finite, and the first equivalence says that this is enough
  refine ⟨hfinite, ?_, fun config hvalid cause => Solver.annealQubo_rejects_iff hvalid,
    fun config hvalid cause => Solver.temperQubo_rejects_iff hvalid⟩
  intro hsmall hevents
  refine hfinite.mpr ⟨?_, ?_⟩
  · intro e r t event room hevent _ _
    have hmem : event ∈ events := List.mem_of_getElem? hevent
    obtain ⟨hattendees, hweight⟩ := hevents event hmem
    refine isFinite_ownCost hpenalty hsmall hattendees ?_ hweight
    intro w hw
    exact (Event.of_validateAll (liftRejection_eq_ok_iff.mp hwishes) event hmem w hw).1
  · intro _ _
    refine hsmall.trans_lt ?_
    rw [← zpow_natCast]
    exact zpow_lt_zpow_right₀ one_lt_two (by norm_num)

/-- Two events of which one has more attendees than the room has seats. -/
def modest : List (Event Float) :=
  [{ attendees := 22, wishes := [{ room := 0, slot := 0, weight := 1.0 }] }, { attendees := 10 }]

theorem modest_in_range :
    ∀ event ∈ modest, event.attendees < 2 ^ 32 ∧ event.wishWeight ≤ 2 ^ (1020 : ℤ) := by
  have hone : (1 : ℝ) ≤ 2 ^ (1020 : ℤ) := one_le_zpow₀ one_le_two (by norm_num)
  unfold modest Event.wishWeight
  intro event hevent
  rcases List.mem_pair.mp hevent with rfl | rfl
  · refine ⟨by decide, ?_⟩
    rw [List.map_singleton, List.sum_singleton, value_one, abs_one]
    exact hone
  · exact ⟨by decide, zero_le_one.trans hone⟩

theorem isFinite_toQubo_modest : ∃ q, toQubo modest [{ capacity := 20 }] 2 1.0 = .ok q ∧
    q.isFinite = true ∧ (Annealing.Config.standard : Annealing.Config Float).validate = .ok () ∧
    ∀ cause, Solver.annealQubo q .standard ≠ .error (.rejected cause) := by
  have hbuilt : (toQubo modest [{ capacity := 20 }] 2 1.0).toOption.isSome = true := by
    decide +kernel
  cases hq : toQubo modest [{ capacity := 20 }] 2 1.0 with
  | error failure =>
    rw [hq] at hbuilt
    cases hbuilt
  | ok q =>
    obtain ⟨-, hrange, hanneal, -⟩ := isFinite_toQubo modest [{ capacity := 20 }] 2 1.0 q hq
    have hpenalty : value 1.0 ≤ 2 ^ (958 : ℤ) := by
      rw [value_one]
      exact one_le_zpow₀ one_le_two (by norm_num)
    have hfinite : q.isFinite = true := hrange hpenalty modest_in_range
    have hvalid : (Annealing.Config.standard : Annealing.Config Float).validate = .ok () := by rfl
    refine ⟨q, rfl, hfinite, hvalid, ?_⟩
    intro cause hrejected
    exact absurd hfinite (Bool.eq_false_iff.mp ((hanneal .standard hvalid cause).mp hrejected).2)

/-- An event that wishes for its place as much as it can, twice, and takes one wish back. -/
def greedy : List (Event Float) :=
  let most := Float.ofBits 0x7fefffffffffffff
  [{ attendees := 0, wishes := [⟨0, 0, most⟩, ⟨0, 0, most⟩, ⟨0, 0, -most⟩] }]

/-- All of its wishes pass, and the QUBO that is made of them is refused by every search. The encoding
over rooms does not accept it. -/
theorem greedy_refused :
    (∃ q, toQubo greedy [{ capacity := 0 }] 1 1.0 = .ok q ∧ q.isFinite = false ∧
      ∀ config : Annealing.Config Float, config.validate = .ok () →
        Solver.annealQubo q config = .error (.rejected .matrixNotFinite)) ∧
    (toPotts greedy [{ capacity := 0 }] 1.0).toOption.isSome = false := by
  have hbuilt : (toQubo greedy [{ capacity := 0 }] 1 1.0).toOption.map (·.isFinite) =
      some false := by
    decide +kernel
  refine ⟨?_, by decide +kernel⟩
  cases hq : toQubo greedy [{ capacity := 0 }] 1 1.0 with
  | error failure =>
    rw [hq] at hbuilt
    cases hbuilt
  | ok q =>
    rw [hq] at hbuilt
    have hinfinite : q.isFinite = false := Option.some.inj hbuilt
    refine ⟨q, rfl, hinfinite, ?_⟩
    intro config hvalid
    exact (Solver.annealQubo_rejects_iff hvalid).mpr ⟨rfl, hinfinite⟩

end ThermalSearch.Timetable
