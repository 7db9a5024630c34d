import Mathlib.Data.List.Chain
import ThermalSearch.Proofs.Scalar.FiniteOrder
import ThermalSearch.Proofs.Tempering.Rounds

/-!
# Adapting a ladder

A ladder is adapted from the cold end upwards, each rung against its lower neighbour in the new
place and its upper neighbour in the old one. That the ladder stays increasing needs no law of
arithmetic, for the new place of a rung is compared with both before the rung moves
(`between_relocate`): the part above a rung that is in its new place is increasing from that place on,
and this is what the recursion carries (`isChain_adaptAbove`).

The main result (`adapt_keeps_order`) speaks of any number of adaptations in a row, to any rates; a run
adapts its ladder in no other way (`Ensemble.isIncreasing_after`).
-/

namespace ThermalSearch.Ladder

variable {α : Type} [Scalar α]

theorem isIncreasing_iff {ladder : List α} :
    isIncreasing ladder = true ↔ ladder.IsChain (· < ·) := by
  fun_induction isIncreasing ladder with
  | case1 a b rest ih =>
    rw [Bool.and_eq_true, decide_eq_true_iff, ih, List.isChain_cons_cons]
  | case2 ladder hshort =>
    match ladder with
    | [] => simp
    | [a] => simp
    | a :: b :: rest => exact absurd rfl (hshort a b rest)

/-! ## One rung -/

variable {low t high rate : α}

/-- A rung moves to a place between its neighbours that is not its old one. -/
theorem relocate?_eq_some {place : α} (h : relocate? low t high rate = some place) :
    low < place ∧ place < high ∧ (place != t) = true := by
  unfold relocate? at h
  split at h
  next => cases h
  next goal _ =>
    dsimp only at h
    split at h
    next hmoves =>
      cases h
      exact hmoves
    next => cases h

/-- Moved or not, a rung is between its neighbours. -/
theorem between_relocate (hlow : low < t) (hhigh : t < high) :
    low < (relocate? low t high rate).getD t ∧ (relocate? low t high rate).getD t < high := by
  cases hplace : relocate? low t high rate with
  | none => exact ⟨hlow, hhigh⟩
  | some place =>
    obtain ⟨habove, hbelow, -⟩ := relocate?_eq_some hplace
    exact ⟨habove, hbelow⟩

/-- A rung that moves has changed its place. -/
theorem relocate?_isSome_iff [DefinedBelow α] (hhigh : t < high) :
    (relocate? low t high rate).isSome = true ↔ (relocate? low t high rate).getD t ≠ t := by
  cases hplace : relocate? low t high rate with
  | none => simp
  | some place =>
    obtain ⟨-, -, hne⟩ := relocate?_eq_some hplace
    have hplaced : place ≠ t := by
      rintro rfl
      rw [bne, DefinedBelow.beq_self_of_lt hhigh] at hne
      cases hne
    simpa using hplaced

/-! ## All rungs -/

/-- How many rungs of a ladder are in another place afterwards. -/
def changes [DecidableEq α] (before after : List α) : Nat :=
  (before.zip after).countP fun rung => decide (rung.2 ≠ rung.1)

omit [Scalar α] in
theorem changes_cons [DecidableEq α] (t t' : α) (rungs rungs' : List α) :
    changes (t :: rungs) (t' :: rungs') = changes rungs rungs' + if t' ≠ t then 1 else 0 := by
  rw [changes, List.zip_cons_cons, List.countP_cons]
  simp [changes]

omit [Scalar α] in
theorem changes_self [DecidableEq α] (ladder : List α) : changes ladder ladder = 0 := by
  induction ladder with
  | nil => rfl
  | cons t rungs ih => rw [changes_cons, ih, if_neg (not_not.mpr rfl)]

theorem isChain_adaptAbove {rungs rates : List α} (h : (low :: rungs).IsChain (· < ·)) :
    (low :: (adaptAbove low rungs rates).1).IsChain (· < ·) := by
  fun_induction adaptAbove low rungs rates with
  | case1 low t high rungs below above rates place rest moved hrest ih =>
    rw [List.isChain_cons_cons, List.isChain_cons_cons] at h
    obtain ⟨hlow, hhigh, hupper⟩ := h
    have hplace : low < place.getD t ∧ place.getD t < high := between_relocate hlow hhigh
    rw [hrest] at ih
    rw [List.isChain_cons_cons]
    exact ⟨hplace.1, ih (List.isChain_cons_cons.mpr ⟨hplace.2, hupper⟩)⟩
  | case2 => exact h

theorem getLast?_adaptAbove (low : α) (rungs rates : List α) :
    (adaptAbove low rungs rates).1.getLast? = rungs.getLast? := by
  fun_induction adaptAbove low rungs rates with
  | case1 low t high rungs below above rates place rest moved hrest ih =>
    rw [hrest] at ih
    -- there is a rung above the one that was placed, before and after
    cases rest with
    | nil =>
      rw [List.getLast?_cons] at ih
      cases ih
    | cons t' rest => rw [List.getLast?_cons_cons, List.getLast?_cons_cons, ih]
  | case2 => rfl

theorem moved_adaptAbove [DefinedBelow α] [DecidableEq α] {rungs rates : List α}
    (h : rungs.IsChain (· < ·)) :
    (adaptAbove low rungs rates).2 = changes rungs (adaptAbove low rungs rates).1 := by
  fun_induction adaptAbove low rungs rates with
  | case1 low t high rungs below above rates place rest moved hrest ih =>
    rw [List.isChain_cons_cons] at h
    have hmoved := ih h.2
    rw [hrest] at hmoved
    have hrung : place.isSome = true ↔ place.getD t ≠ t := relocate?_isSome_iff h.1
    have hcount : moved = changes (high :: rungs) rest := hmoved
    rw [changes_cons, hcount]
    by_cases hplace : place.getD t ≠ t
    · rw [if_pos hplace, if_pos (hrung.mpr hplace)]
    · rw [if_neg hplace, if_neg (mt hrung.mp hplace), Nat.add_zero]
  | case2 low rungs => exact (changes_self rungs).symm

/-! ## Adaptations -/

/-- Without an inner rung, or without one rate for each pair, nothing moves. -/
theorem adapt_eq_self {temperatures rates : List α}
    (h : temperatures.length < 3 ∨ rates.length + 1 ≠ temperatures.length) :
    adapt temperatures rates = (temperatures, 0) := by
  unfold adapt
  cases temperatures with
  | nil => rfl
  | cons low rungs => exact if_pos h

/-- What an adaptation does to an increasing ladder, whatever the rates. -/
structure Adapted [DecidableEq α] (before after : List α) (moved : Nat) : Prop where
  length : after.length = before.length
  coldest : after.head? = before.head?
  hottest : after.getLast? = before.getLast?
  increasing : isIncreasing after = true
  moved : moved = changes before after

theorem adapted_adapt [DefinedBelow α] [DecidableEq α] {temperatures : List α}
    (h : isIncreasing temperatures = true) (rates : List α) :
    Adapted temperatures (adapt temperatures rates).1 (adapt temperatures rates).2 := by
  by_cases hidle : temperatures.length < 3 ∨ rates.length + 1 ≠ temperatures.length
  · rw [adapt_eq_self hidle]
    exact ⟨rfl, rfl, rfl, h, (changes_self temperatures).symm⟩
  · cases temperatures with
    | nil => exact absurd (Or.inl (by simp)) hidle
    | cons low rungs =>
      have hadapt : adapt (low :: rungs) rates =
          (low :: (adaptAbove low rungs rates).1, (adaptAbove low rungs rates).2) := by
        rw [adapt, if_neg hidle]
      have hlength := length_adapt (low :: rungs) rates
      have hchain : (low :: rungs).IsChain (· < ·) := isIncreasing_iff.mp h
      have hlast := getLast?_adaptAbove low rungs rates
      rw [hadapt] at hlength ⊢
      refine ⟨hlength, rfl, ?_, isIncreasing_iff.mpr (isChain_adaptAbove hchain), ?_⟩
      · rw [List.getLast?_cons, List.getLast?_cons, hlast]
      · rw [changes_cons, if_neg (not_not.mpr rfl)]
        exact moved_adaptAbove hchain.of_cons

/-- The ladder after a number of adaptations, to these rates in turn. -/
def adaptInTurn (temperatures : List α) (calls : List (List α)) : List α :=
  calls.foldl (fun ladder rates => (adapt ladder rates).1) temperatures

/-- What each adaptation keeps is kept. -/
theorem adaptInTurn_induction (Inv : List α → Prop)
    (hadapt : ∀ ladder rates, Inv ladder → Inv (adapt ladder rates).1) {temperatures : List α}
    (h : Inv temperatures) (calls : List (List α)) : Inv (adaptInTurn temperatures calls) := by
  induction calls generalizing temperatures with
  | nil => exact h
  | cons rates calls ih => exact ih (hadapt temperatures rates h)

/-- However often and to whatever rates an increasing ladder is adapted, each time it keeps its
length, its ends and its order, and the count returned is that of the rungs that changed place. -/
theorem adapt_keeps_order [DefinedBelow α] [DecidableEq α] (temperatures : List α)
    (hincreasing : isIncreasing temperatures = true) (earlier : List (List α))
    (rates : List α) :
    let before := adaptInTurn temperatures earlier
    let after := (adapt before rates).1
    let moved := (adapt before rates).2
    after = adaptInTurn temperatures (earlier ++ [rates]) ∧
      after.length = temperatures.length ∧ after.head? = temperatures.head? ∧
      after.getLast? = temperatures.getLast? ∧ isIncreasing after = true ∧
      moved = changes before after ∧
      (temperatures.length < 3 ∨ rates.length + 1 ≠ temperatures.length →
        after = before ∧ moved = 0) := by
  intro before after moved
  have hbefore : before.length = temperatures.length ∧ before.head? = temperatures.head? ∧
      before.getLast? = temperatures.getLast? ∧ isIncreasing before = true := by
    refine adaptInTurn_induction (fun ladder => ladder.length = temperatures.length ∧
      ladder.head? = temperatures.head? ∧ ladder.getLast? = temperatures.getLast? ∧
      isIncreasing ladder = true) ?_ ⟨rfl, rfl, rfl, hincreasing⟩ earlier
    rintro ladder rates ⟨hlength, hcoldest, hhottest, hladder⟩
    have hadapted := adapted_adapt hladder rates
    exact ⟨hadapted.length.trans hlength, hadapted.coldest.trans hcoldest,
      hadapted.hottest.trans hhottest, hadapted.increasing⟩
  obtain ⟨hlength, hcoldest, hhottest, hladder⟩ := hbefore
  have hadapted : Adapted before after moved := adapted_adapt hladder rates
  refine ⟨?_, hadapted.length.trans hlength, hadapted.coldest.trans hcoldest,
    hadapted.hottest.trans hhottest, hadapted.increasing, hadapted.moved, ?_⟩
  · rw [adaptInTurn, List.foldl_append]
    rfl
  · intro hidle
    rw [← hlength] at hidle
    exact Prod.ext_iff.mp (adapt_eq_self hidle)

/-- After exchanges too rare below the middle rung, it is drawn towards its colder neighbour, and
drawn on when that goes on. -/
theorem adapt_keeps_order_rare :
    isIncreasing [1.0, 9.0, (16.0 : Float)] = true ∧
    isIncreasing (adapt (adaptInTurn [1.0, 9.0, (16.0 : Float)] [[0.0, 0.0]]) [0.0, 0.0]).1 =
      true ∧
    (adapt (adaptInTurn [1.0, 9.0, (16.0 : Float)] [[0.0, 0.0]]) [0.0, 0.0]).2 = 1 := by
  have hincreasing : isIncreasing [1.0, 9.0, (16.0 : Float)] = true := by rfl
  have hpromise := adapt_keeps_order [1.0, 9.0, (16.0 : Float)] hincreasing [[0.0, 0.0]] [0.0, 0.0]
  exact ⟨hincreasing, hpromise.2.2.2.2.1, by decide +kernel⟩

end ThermalSearch.Ladder

namespace ThermalSearch.Tempering.Ensemble

variable {α : Type} [Scalar α] {problem : Problem α} {config : Config α} {e e' : Ensemble α}

/-- A round leaves the ladder alone or adapts it. -/
theorem temperatures_of_round (h : e.round problem config = .ok e') :
    e'.temperatures = e.temperatures ∨
      ∃ rates, e'.temperatures = (Ladder.adapt e.temperatures rates).1 := by
  obtain ⟨replicas, -, rfl⟩ := round_eq_ok.mp h
  unfold conclude
  rw [trackBest_eq]
  dsimp only
  split
  · exact Or.inr ⟨_, rfl⟩
  · exact Or.inl rfl

/-- A run that starts on an increasing ladder stays on one. -/
theorem isIncreasing_after [DefinedBelow α] [DecidableEq α] {n : Nat}
    (hstart : Ladder.isIncreasing e.temperatures = true)
    (h : after (round problem config) n e = .ok e') :
    Ladder.isIncreasing e'.temperatures = true := by
  refine after_induction (fun d => Ladder.isIncreasing d.temperatures = true) ?_ hstart h
  intro d d' hd hround
  rcases temperatures_of_round hround with hkept | ⟨rates, hadapted⟩
  · rw [hkept]
    exact hd
  · rw [hadapted]
    exact (Ladder.adapted_adapt hd rates).increasing

end ThermalSearch.Tempering.Ensemble
