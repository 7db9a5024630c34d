import Mathlib.Data.List.DropRight
import Mathlib.Data.List.Induction
import ThermalSearch.Annealing.Cooling

/-!
# What a cooler remembers

A cooler keeps two windows that slide independently of each other, the one at every move and the
other at finite energies only, and counts the accepted moves as they come and go. What it remembers
after a number of moves can be told from the moves alone (`Cooler.ofMoves`): the latest outcomes, how
many of them were accepted, and the latest of the finite energies.
-/

namespace ThermalSearch

/-! ## Windows -/

variable {β : Type}

theorem length_rtake (past : List β) (n : Nat) : (past.rtake n).length = min n past.length := by
  rw [List.rtake, List.length_drop]
  omega

theorem rtake_of_length_le {past : List β} {n : Nat} (h : past.length ≤ n) : past.rtake n = past := by
  rw [List.rtake, Nat.sub_eq_zero_of_le h, List.drop_zero]

/-- A window that holds the latest entries holds the latest ones after the next. -/
theorem slide_rtake {capacity : Nat} (hpos : 0 < capacity) (past : List β) (entry : β) :
    slide capacity (past.rtake capacity) entry = (past ++ [entry]).rtake capacity := by
  unfold slide
  rw [length_rtake, List.rtake, List.rtake, List.length_append, List.length_singleton]
  by_cases hroom : past.length < capacity
  · -- nothing was forgotten so far, nor is now
    have hold : past.length - capacity = 0 := by omega
    have hnew : past.length + 1 - capacity = 0 := by omega
    rw [if_neg (by omega), hold, hnew, List.drop_zero, List.drop_zero]
  · have hnext : past.length + 1 - capacity = past.length - capacity + 1 := by omega
    rw [if_pos (by omega), hnext, List.tail_drop,
      List.drop_append_of_le_length (by omega : past.length - capacity + 1 ≤ past.length)]

/-- What leaves a window of outcomes is counted off, what enters it is counted in. -/
theorem count_slide (capacity : Nat) (outcomes : List Bool) (accepted : Bool) :
    (slide capacity outcomes accepted).count true =
      (outcomes.count true -
        if outcomes.length = capacity ∧ outcomes.head? = some true then 1 else 0) +
        if accepted then 1 else 0 := by
  have hcounted : [accepted].count true = if accepted then 1 else 0 := by
    cases accepted <;> rfl
  unfold slide
  by_cases hfull : outcomes.length = capacity
  · rw [if_pos hfull, List.count_append, hcounted, List.count_tail]
    cases outcomes with
    | nil => simp
    | cons oldest outcomes =>
      cases oldest with
      | true => simp [hfull]
      | false => simp
  · rw [if_neg hfull, if_neg (fun h => hfull h.1), List.count_append, hcounted, Nat.sub_zero]

/-! ## Coolers -/

namespace Cooler

variable {α : Type} [Scalar α]

/-- A cooler that has seen moves of these outcomes and energies, the oldest first. -/
def ofMoves (schedule : CoolingSchedule) (alpha lambda : α) (outcomes : List Bool)
    (energies : List α) : Cooler α where
  schedule := schedule
  alpha := alpha
  lambda := lambda
  outcomes := outcomes.rtake window
  accepted := (outcomes.rtake window).count true
  energies := (energies.filter (Scalar.isFinite ·)).rtake window

/-- One move more. -/
theorem observe_ofMoves (schedule : CoolingSchedule) (alpha lambda : α) (outcomes : List Bool)
    (energies : List α) (accepted : Bool) (energy : α) :
    (ofMoves schedule alpha lambda outcomes energies).observe accepted energy =
      ofMoves schedule alpha lambda (outcomes ++ [accepted]) (energies ++ [energy]) := by
  have hwindow : 0 < window := Nat.succ_pos _
  have houtcomes := slide_rtake hwindow outcomes accepted
  have hcount := count_slide window (outcomes.rtake window) accepted
  have henergies : (if Scalar.isFinite energy then
      slide window ((energies.filter (Scalar.isFinite ·)).rtake window) energy
      else (energies.filter (Scalar.isFinite ·)).rtake window) =
        ((energies ++ [energy]).filter (Scalar.isFinite ·)).rtake window := by
    rw [List.filter_append]
    by_cases hfinite : Scalar.isFinite energy = true
    · rw [if_pos hfinite, slide_rtake hwindow]
      simp [hfinite]
    · rw [if_neg hfinite]
      simp [hfinite]
  rw [houtcomes] at hcount
  unfold observe
  simp only [ofMoves, henergies, houtcomes, hcount]
  rfl

/-- A cooler after some moves. -/
def observeAll (c : Cooler α) (moves : List (Bool × α)) : Cooler α :=
  moves.foldl (fun c move => c.observe move.1 move.2) c

/-- The settings stay as they are. -/
theorem settings_observeAll (c : Cooler α) (moves : List (Bool × α)) :
    (c.observeAll moves).schedule = c.schedule ∧ (c.observeAll moves).alpha = c.alpha ∧
      (c.observeAll moves).lambda = c.lambda := by
  induction moves generalizing c with
  | nil => exact ⟨rfl, rfl, rfl⟩
  | cons move moves ih => exact ih (c.observe move.1 move.2)

/-- It remembers what can be told from the moves. -/
theorem observeAll_eq_ofMoves (schedule : CoolingSchedule) (alpha lambda : α)
    (moves : List (Bool × α)) :
    ({ schedule, alpha, lambda } : Cooler α).observeAll moves =
      ofMoves schedule alpha lambda (moves.map Prod.fst) (moves.map Prod.snd) := by
  induction moves using List.reverseRecOn with
  | nil => rfl
  | append_singleton moves move ih =>
    have hlast : ({ schedule, alpha, lambda } : Cooler α).observeAll (moves ++ [move]) =
        (({ schedule, alpha, lambda } : Cooler α).observeAll moves).observe move.1 move.2 := by
      simp only [observeAll, List.foldl_append, List.foldl_cons, List.foldl_nil]
    rw [hlast, ih, observe_ofMoves, List.map_append, List.map_append]
    rfl

end Cooler

end ThermalSearch
