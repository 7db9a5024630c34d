import ThermalSearch.Proofs.Scalar.UnitChange
import ThermalSearch.Proofs.Settings
import ThermalSearch.Proofs.Tempering.Rounds

/-!
# Tempering in other units

Replicas whose energies and temperatures are measured in other units move and are exchanged as
before: each part of a round commutes with measuring anew, and so do rounds
(`Ensemble.round_remeasure`) and runs (`run_remeasure`). A ladder looks at ratios of temperatures and
at rates only, so the ladder in other units is the ladder measured anew, and stays so when it is
adapted (`Ladder.adapt_remeasure`).
-/

namespace ThermalSearch

variable {K : Type} [Field K] [LinearOrder K] [FloorSemiring K] {f : Uninterpreted K}
  (u : UnitChange f)

/-! ## Ladders -/

namespace Ladder

theorem geometricRung_remeasure (lowest highest : Exact f) (n i : Nat) :
    geometricRung (u.temperature lowest) (u.temperature highest) n i =
      u.temperature (geometricRung lowest highest n i) := by
  unfold geometricRung
  rw [u.temperature_div_temperature, u.temperature_mul, apply_ite u.temperature]

theorem geometric_remeasure (lowest highest : Exact f) (n : Nat) :
    geometric (u.temperature lowest) (u.temperature highest) n =
      (geometric lowest highest n).map u.temperature := by
  unfold geometric
  rw [apply_ite (List.map u.temperature), List.map_singleton, List.map_map]
  refine if_congr Iff.rfl rfl (List.map_congr_left fun i _ => ?_)
  exact geometricRung_remeasure u lowest highest n i

/-- The middle between two rungs is a temperature, and which neighbour is farther off is a matter
of ratios. -/
theorem goal?_remeasure (low t high rate : Exact f) :
    goal? (u.temperature low) (u.temperature t) (u.temperature high) rate =
      (goal? low t high rate).map u.temperature := by
  unfold goal?
  rw [u.sqrt_temperature_mul_temperature, u.temperature_div_temperature,
    u.temperature_div_temperature]
  split
  · rfl
  · split
    · rw [← apply_ite u.temperature]
      rfl
    · rfl

variable [IsStrictOrderedRing K]

theorem relocate?_remeasure (low t high rate : Exact f) :
    relocate? (u.temperature low) (u.temperature t) (u.temperature high) rate =
      (relocate? low t high rate).map u.temperature := by
  unfold relocate?
  rw [goal?_remeasure]
  cases goal? low t high rate with
  | none => rfl
  | some goal =>
    simp only [Option.map_some, u.temperature_sub_temperature, u.mul_temperature,
      u.temperature_add_temperature, gt_iff_lt, u.temperature_lt_temperature_iff, bne,
      u.temperature_beq_temperature]
    rw [apply_ite (Option.map u.temperature)]
    rfl

theorem adaptAbove_remeasure (low : Exact f) (rungs rates : List (Exact f)) :
    adaptAbove (u.temperature low) (rungs.map u.temperature) rates =
      ((adaptAbove low rungs rates).1.map u.temperature, (adaptAbove low rungs rates).2) := by
  fun_induction adaptAbove low rungs rates with
  | case1 low t high rungs below above rates place rest moved hrest ih =>
    have hplace : relocate? (u.temperature low) (u.temperature t) (u.temperature high)
        ((below + above) / 2.0) = place.map u.temperature := relocate?_remeasure u _ _ _ _
    have hlower : (place.map u.temperature).getD (u.temperature t) =
        u.temperature (place.getD t) := Option.getD_map u.temperature t place
    rw [hrest] at ih
    rw [List.map_cons, List.map_cons, adaptAbove, hplace, hlower, ← List.map_cons, ih,
      Option.isSome_map]
    rfl
  | case2 low rungs rates hfew =>
    -- without two rungs and two rates to look at, nothing moves
    rw [adaptAbove]
    rintro t high rungs' below above rates' hrungs rfl
    match rungs, hrungs with
    | _ :: _ :: _, _ => exact hfew _ _ _ _ _ _ rfl rfl

theorem adapt_remeasure (temperatures rates : List (Exact f)) :
    adapt (temperatures.map u.temperature) rates =
      ((adapt temperatures rates).1.map u.temperature, (adapt temperatures rates).2) := by
  cases temperatures with
  | nil => rfl
  | cons low rungs =>
    simp only [adapt, List.map_cons, List.length_cons, List.length_map, adaptAbove_remeasure]
    split
    · rfl
    · rfl

end Ladder

namespace Tempering

/-! ## Measuring anew -/

section

variable {α : Type}

/-- The settings of a run whose temperatures are measured anew. -/
def Config.remeasure (onTemperature : α → α) (c : Config α) : Config α :=
  { c with
    minTemperature := onTemperature c.minTemperature
    maxTemperature := onTemperature c.maxTemperature }

/-- A replica whose energies are measured anew. -/
def Replica.remeasure (onEnergy : α → α) (r : Replica α) : Replica α :=
  { r with energy := onEnergy r.energy, bestEnergy := onEnergy r.bestEnergy }

def Exchanges.remeasure (onEnergy : α → α) (x : Exchanges α) : Exchanges α :=
  { x with replicas := x.replicas.map (Replica.remeasure onEnergy) }

/-- An ensemble whose energies and temperatures are measured anew. Its states, its generators and
its tallies stay. -/
def Ensemble.remeasure (onEnergy onTemperature : α → α) (e : Ensemble α) : Ensemble α :=
  { e with
    temperatures := e.temperatures.map onTemperature
    replicas := e.replicas.map (Replica.remeasure onEnergy)
    bestEnergy := onEnergy e.bestEnergy
    traces := e.traces.map (Array.map onEnergy)
    journal := e.journal.map (Event.remeasure onEnergy onTemperature) }

/-- A result whose energies and temperatures are measured anew. -/
def Result.remeasure (onEnergy onTemperature : α → α) (r : Result α) : Result α :=
  { r with
    bestEnergy := onEnergy r.bestEnergy
    replicaEnergies := r.replicaEnergies.map onEnergy
    energyTraces := r.energyTraces.map (Array.map onEnergy)
    temperatures := r.temperatures.map onTemperature }

variable (onEnergy onTemperature : α → α)

theorem startReplicas_remeasure (initial : State α) (energy : α) (n : Nat) (g : Generator) :
    startReplicas initial (onEnergy energy) n g =
      ((startReplicas initial energy n g).1.map (Replica.remeasure onEnergy),
        (startReplicas initial energy n g).2) := by
  induction n generalizing g with
  | zero => rfl
  | succ n ih =>
    simp only [startReplicas, ih]
    rfl

theorem Ensemble.opening_remeasure (config : Config α) :
    opening (config.remeasure onTemperature) =
      (opening config).map (Event.remeasure onEnergy onTemperature) := by
  have hrungs : (config.remeasure onTemperature).effectiveReplicas = config.effectiveReplicas :=
    rfl
  have hreplicas : (config.remeasure onTemperature).replicas = config.replicas := rfl
  simp only [opening, hrungs, hreplicas, apply_ite (Array.map _), List.map_toArray]
  rfl

theorem Ensemble.evaluations_remeasure (e : Ensemble α) :
    (e.remeasure onEnergy onTemperature).evaluations = e.evaluations := by
  simp only [evaluations, remeasure, List.map_map]
  rfl

theorem Ensemble.report_remeasure [Scalar α] (e : Ensemble α) (cancelled : Bool) :
    (e.remeasure onEnergy onTemperature).report cancelled =
      (e.report cancelled).remeasure (Result.remeasure onEnergy onTemperature)
        (Event.remeasure onEnergy onTemperature) := by
  unfold report Report.remeasure
  rw [evaluations_remeasure]
  simp only [result, Result.remeasure, remeasure, List.map_map, List.map_append,
    List.map_singleton, Array.toList_map]
  rfl

end

/-! ## Moves -/

variable (problem : Problem (Exact f)) (config : Config (Exact f)) [IsStrictOrderedRing K]

namespace Replica

theorem judged_remeasure (r : Replica (Exact f)) (accepted : Bool) (candidate : State (Exact f))
    (energy : Exact f) (g : Generator) :
    (r.remeasure u.energy).judged accepted candidate (u.energy energy) g =
      (r.judged accepted candidate energy g).remeasure u.energy := by
  have hbetter : improves (u.energy energy) (r.remeasure u.energy).bestEnergy =
      improves energy r.bestEnergy := u.improves_energy energy r.bestEnergy
  cases accepted with
  | false => rfl
  | true =>
    simp only [judged, enter, if_true, hbetter]
    split
    · rfl
    · rfl

/-- A move commutes with measuring anew. -/
theorem move_remeasure (temperature : Exact f) (r : Replica (Exact f)) :
    (r.remeasure u.energy).move (problem.remeasure u.energy) (u.temperature temperature) =
      (r.move problem temperature).map (remeasure u.energy) := by
  have htrial : (problem.remeasure u.energy).trial (r.remeasure u.energy).state
      (r.remeasure u.energy).energy (u.temperature temperature)
      (r.remeasure u.energy).generator =
        (problem.trial r.state r.energy temperature r.generator).map
          (Trial.remeasure u.energy) := u.trial_remeasure problem _ _ _ _
  rw [move_eq_map_trial, move_eq_map_trial, htrial]
  cases problem.trial r.state r.energy temperature r.generator with
  | error fault => rfl
  | ok t =>
    exact congrArg Except.ok
      (judged_remeasure u r t.accepted t.candidate t.energy t.generator)

theorem sweep_remeasure (temperature : Exact f) (n : Nat) (r : Replica (Exact f)) :
    (r.remeasure u.energy).sweep (problem.remeasure u.energy) (u.temperature temperature) n =
      (r.sweep problem temperature n).map (remeasure u.energy) := by
  rw [sweep_eq_after, sweep_eq_after]
  exact after_map (move_remeasure u problem temperature) n r

end Replica

theorem localPhase_remeasure (sweeps : Nat) (temperatures : List (Exact f))
    (replicas : List (Replica (Exact f))) :
    localPhase (problem.remeasure u.energy) sweeps (temperatures.map u.temperature)
        (replicas.map (Replica.remeasure u.energy)) =
      (localPhase problem sweeps temperatures replicas).map
        (List.map (Replica.remeasure u.energy)) := by
  induction temperatures generalizing replicas with
  | nil =>
    unfold localPhase
    rfl
  | cons temperature temperatures ih =>
    cases replicas with
    | nil =>
      unfold localPhase
      rfl
    | cons r replicas =>
      rw [List.map_cons, List.map_cons, localPhase, localPhase, Replica.sweep_remeasure, ih]
      cases r.sweep problem temperature sweeps with
      | error fault => rfl
      | ok r' =>
        cases localPhase problem sweeps temperatures replicas with
        | error fault => rfl
        | ok rest => rfl

/-! ## Exchanges -/

omit [IsStrictOrderedRing K] in
theorem exchangePairs_remeasure (temperatures : List (Exact f))
    (replicas : List (Replica (Exact f))) (tallies : List Tally) (g : Generator) :
    exchangePairs (temperatures.map u.temperature)
        (replicas.map (Replica.remeasure u.energy)) tallies g =
      (exchangePairs temperatures replicas tallies g).remeasure u.energy := by
  fun_induction exchangePairs temperatures replicas tallies g with
  | case1 cold hot temperatures a b replicas tally tallies g accepted g' hdecide a' b' hpair
      rest ih =>
    have hverdict : (exchange (u.temperature cold) (u.temperature hot)
        (a.remeasure u.energy).energy (b.remeasure u.energy).energy).decide g =
          (accepted, g') := by
      rw [← hdecide]
      exact congrArg (Verdict.decide · g) (u.exchange_energy cold hot a.energy b.energy)
    have hoffered : (if accepted then (a.remeasure u.energy).swap (b.remeasure u.energy)
        else (a.remeasure u.energy, b.remeasure u.energy)) =
          (a'.remeasure u.energy, b'.remeasure u.energy) := by
      cases accepted with
      | false =>
        cases hpair
        rfl
      | true =>
        cases hpair
        rfl
    simp only [List.map_cons, exchangePairs, hverdict, hoffered, ih]
    rfl
  | case2 temperatures replicas tallies g hfew =>
    -- without a pair and its tally there is nothing to exchange
    rw [exchangePairs]
    · rfl
    · intro cold hot temperatures' a b replicas' tally tallies' htemperatures hreplicas htallies
      match temperatures, replicas, htemperatures, hreplicas with
      | _ :: _ :: _, _ :: _ :: _, _, _ => exact hfew _ _ _ _ _ _ _ _ rfl rfl htallies

omit [IsStrictOrderedRing K] in
theorem exchangePhase_remeasure (round : Nat) (temperatures : List (Exact f))
    (replicas : List (Replica (Exact f))) (tallies : List Tally) (g : Generator) :
    exchangePhase round (temperatures.map u.temperature)
        (replicas.map (Replica.remeasure u.energy)) tallies g =
      (exchangePhase round temperatures replicas tallies g).remeasure u.energy := by
  unfold exchangePhase
  split
  · exact exchangePairs_remeasure u _ _ _ _
  · -- the coldest rung sits out
    rw [← List.map_drop, ← List.map_drop, ← List.map_take, exchangePairs_remeasure]
    simp only [Exchanges.remeasure, List.map_append]

/-! ## Rounds -/

namespace Ensemble

theorem noteBest_remeasure (e : Ensemble (Exact f)) (r : Replica (Exact f)) :
    (e.remeasure u.energy u.temperature).noteBest (r.remeasure u.energy) =
      (e.noteBest r).remeasure u.energy u.temperature := by
  have hbetter : improves (r.remeasure u.energy).bestEnergy
      (e.remeasure u.energy u.temperature).bestEnergy = improves r.bestEnergy e.bestEnergy :=
    u.improves_energy r.bestEnergy e.bestEnergy
  unfold noteBest
  rw [hbetter]
  split
  · rfl
  · rfl

theorem trackBest_remeasure (e : Ensemble (Exact f)) :
    (e.remeasure u.energy u.temperature).trackBest =
      e.trackBest.remeasure u.energy u.temperature := by
  have hreplicas : (e.remeasure u.energy u.temperature).replicas =
      e.replicas.map (Replica.remeasure u.energy) := rfl
  unfold trackBest
  rw [hreplicas, List.foldl_map]
  exact List.foldl_hom (remeasure u.energy u.temperature) (noteBest_remeasure u)

omit [IsStrictOrderedRing K] in
theorem exchangeStates_remeasure (e : Ensemble (Exact f)) :
    (e.remeasure u.energy u.temperature).exchangeStates =
      e.exchangeStates.remeasure u.energy u.temperature := by
  simp only [exchangeStates, remeasure, exchangePhase_remeasure, Exchanges.remeasure,
    List.map_zipWith, List.zipWith_map, Array.map_push]
  rfl

theorem adaptLadder_remeasure (e : Ensemble (Exact f)) :
    (e.remeasure u.energy u.temperature).adaptLadder =
      e.adaptLadder.remeasure u.energy u.temperature := by
  simp only [adaptLadder, remeasure, Ladder.adapt_remeasure, Array.map_push]
  rfl

/-- A round commutes with measuring anew. -/
theorem round_remeasure (e : Ensemble (Exact f)) :
    (e.remeasure u.energy u.temperature).round (problem.remeasure u.energy)
        (config.remeasure u.temperature) =
      (e.round problem config).map (remeasure u.energy u.temperature) := by
  have hlocal : localPhase (problem.remeasure u.energy)
      (config.remeasure u.temperature).sweepsPerSwap
      (e.remeasure u.energy u.temperature).temperatures
      (e.remeasure u.energy u.temperature).replicas =
        (localPhase problem config.sweepsPerSwap e.temperatures e.replicas).map
          (List.map (Replica.remeasure u.energy)) := localPhase_remeasure u problem _ _ _
  unfold round
  rw [hlocal]
  cases localPhase problem config.sweepsPerSwap e.temperatures e.replicas with
  | error fault => rfl
  | ok replicas =>
    have hafter : { e.remeasure u.energy u.temperature with
          replicas := replicas.map (Replica.remeasure u.energy) }.trackBest.exchangeStates =
        { e with replicas := replicas }.trackBest.exchangeStates.remeasure u.energy
          u.temperature := by
      rw [← exchangeStates_remeasure, ← trackBest_remeasure]
      rfl
    dsimp only [bind, Except.bind, Except.map]
    rw [hafter]
    generalize { e with replicas := replicas }.trackBest.exchangeStates = e'
    have hadapts : (e'.remeasure u.energy u.temperature).adaptsNow
        (config.remeasure u.temperature) = e'.adaptsNow config := rfl
    rw [hadapts, adaptLadder_remeasure]
    cases e'.adaptsNow config with
    | false => rfl
    | true => rfl

/-! ## Runs -/

omit [FloorSemiring K] [IsStrictOrderedRing K] in
theorem exit?_remeasure (watch : Watch) (e : Ensemble (Exact f)) :
    exit? watch (e.remeasure u.energy u.temperature) = exit? watch e := by
  have hpoll : (e.remeasure u.energy u.temperature).poll = e.poll := by
    unfold poll
    rw [evaluations_remeasure]
    rfl
  unfold exit?
  rw [hpoll]

theorem advance_remeasure (watch : Watch) (remaining : Nat) (e : Ensemble (Exact f)) :
    (e.remeasure u.energy u.temperature).advance (problem.remeasure u.energy)
        (config.remeasure u.temperature) watch remaining =
      (e.advance problem config watch remaining).map
        (Prod.map id (remeasure u.energy u.temperature)) := by
  rw [advance_eq_runUntil, advance_eq_runUntil]
  exact runUntil_map (exit?_remeasure u watch) (round_remeasure u problem config) remaining e

omit [IsStrictOrderedRing K] in
theorem start_remeasure (initial : State (Exact f)) (energy : Exact f) :
    start (config.remeasure u.temperature) initial (u.energy energy) =
      (start config initial energy).remeasure u.energy u.temperature := by
  have hrungs : (config.remeasure u.temperature).effectiveReplicas = config.effectiveReplicas :=
    rfl
  have hladder : Ladder.geometric (config.remeasure u.temperature).minTemperature
      (config.remeasure u.temperature).maxTemperature config.effectiveReplicas =
        (Ladder.geometric config.minTemperature config.maxTemperature
          config.effectiveReplicas).map u.temperature := Ladder.geometric_remeasure u _ _ _
  simp only [start, opening_remeasure u.energy, hrungs, startReplicas_remeasure, hladder, remeasure,
    List.map_replicate, List.map_toArray]
  rfl

end Ensemble

/-- Whether settings are accepted does not depend on the unit. -/
theorem Config.validate_remeasure :
    (config.remeasure u.temperature).validate = .ok () ↔ config.validate = .ok () := by
  simp only [validate_eq_ok_iff, remeasure, Exact.isFinite_eq_true, u.temperature_le_zero_iff,
    u.temperature_le_temperature_iff]

/-- After as many rounds the ensemble in other units is where the ensemble is. -/
theorem after_start_remeasure (initial : State (Exact f)) (energy : Exact f) (n : Nat) :
    after (Ensemble.round (problem.remeasure u.energy) (config.remeasure u.temperature)) n
        (Ensemble.start (config.remeasure u.temperature) initial (u.energy energy)) =
      (after (Ensemble.round problem config) n (Ensemble.start config initial energy)).map
        (Ensemble.remeasure u.energy u.temperature) := by
  rw [Ensemble.start_remeasure]
  exact after_map (Ensemble.round_remeasure u problem config) n _

/-- A run in other units is the run, its report measured anew. -/
theorem run_remeasure (watch : Watch) {initial : State (Exact f)}
    (hvalid : config.validate = .ok ()) (hstate : initial ≠ []) :
    run (problem.remeasure u.energy) (config.remeasure u.temperature) watch initial =
      (run problem config watch initial).map
        (Report.remeasure (Result.remeasure u.energy u.temperature)
          (Event.remeasure u.energy u.temperature)) := by
  rw [run_of_admitted watch ((Config.validate_remeasure u config).mpr hvalid) hstate,
    run_of_admitted watch hvalid hstate]
  have hreserve : (config.remeasure u.temperature).reserve = config.reserve := rfl
  have henergy : (problem.remeasure u.energy).energy initial =
      (problem.energy initial).map u.energy := rfl
  rw [hreserve, henergy]
  cases config.reserve with
  | error fault => rfl
  | ok =>
    cases problem.energy initial with
    | error fault => rfl
    | ok energy =>
      have hadvance := Ensemble.advance_remeasure u problem config watch config.totalSwaps
        (Ensemble.start config initial energy)
      rw [← Ensemble.start_remeasure] at hadvance
      have hbudget : (config.remeasure u.temperature).totalSwaps = config.totalSwaps := rfl
      dsimp only [bind, Except.bind, Except.map]
      rw [hbudget, hadvance]
      cases (Ensemble.start config initial energy).advance problem config watch
        config.totalSwaps with
      | error fault => rfl
      | ok out => exact congrArg Except.ok (Ensemble.report_remeasure _ _ out.2 out.1)

end Tempering

end ThermalSearch
