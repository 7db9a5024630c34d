import Mathlib.Algebra.Order.Group.Nat
import Mathlib.Order.Bounds.Basic
import ThermalSearch.Proofs.Annealing.Anytime
import ThermalSearch.Proofs.Annealing.Window

/-!
# The temperatures of an annealing run

The temperatures of a run follow a recurrence (`Config.temperatureAt`): from the initial one, after
every so many moves comes the reheat temperature, and after any other move what the schedule makes of
the outcomes and energies so far. The chain computes it with a cooler that has seen just these
(`Followed.cooler`), so its temperature is that of the recurrence, at each move and in the history.

A run that is not cancelled therefore ends at the first temperature of the recurrence that is below the
final one, or with its budget, whichever comes first (`run_temperatures`).
-/

namespace ThermalSearch.Annealing

variable {α : Type} [Scalar α] {problem : Problem α} {config : Config α}

/-! ## The recurrence -/

namespace Config

/-- Whether the temperature is raised after so many moves. -/
def ReheatsAfter (config : Config α) (moves : Nat) : Prop :=
  0 < config.reheatInterval ∧ config.reheatInterval ∣ moves

instance (config : Config α) (moves : Nat) : Decidable (config.ReheatsAfter moves) :=
  inferInstanceAs (Decidable (_ ∧ _))

/-- The temperature after so many moves, of these outcomes and energies. -/
def temperatureAt (config : Config α) (outcomes : List Bool) (energies : List α) : Nat → α
  | 0 => config.initialTemperature
  | k + 1 =>
    if config.ReheatsAfter (k + 1) then config.initialTemperature * config.reheatFraction
    else
      (Cooler.ofMoves config.cooling config.alpha config.huangLambda (outcomes.take (k + 1))
        (energies.take (k + 1))).nextTemperature (config.temperatureAt outcomes energies k)

/-- A temperature depends on the moves before it, not on those that come later. -/
theorem temperatureAt_append {outcomes : List Bool} {energies : List α} {k : Nat}
    (houtcomes : k ≤ outcomes.length) (henergies : k ≤ energies.length) (later : List Bool)
    (later' : List α) : config.temperatureAt (outcomes ++ later) (energies ++ later') k =
      config.temperatureAt outcomes energies k := by
  induction k with
  | zero => rfl
  | succ k ih =>
    rw [temperatureAt, temperatureAt, ih (by omega) (by omega),
      List.take_append_of_le_length houtcomes, List.take_append_of_le_length henergies]

omit [Scalar α] in
/-- Number `k + 1` among the moves is followed by a reheat when the interval divides it, so the
reheats so far are the multiples of the interval so far. -/
theorem reheats_succ (config : Config α) (k : Nat) : (k + 1) / config.reheatInterval =
    k / config.reheatInterval + if config.ReheatsAfter (k + 1) then 1 else 0 := by
  rw [Nat.succ_div]
  by_cases hdvd : config.reheatInterval ∣ k + 1
  · have hpos : 0 < config.reheatInterval := Nat.pos_of_dvd_of_pos hdvd (Nat.succ_pos k)
    rw [if_pos hdvd, if_pos ⟨hpos, hdvd⟩]
  · rw [if_neg hdvd, if_neg fun h => hdvd h.2]

end Config

/-! ## One move -/

namespace Chain

/-- Whether the next move enters its candidate. -/
def enters (problem : Problem α) (c : Chain α) : Bool :=
  match problem.trial c.state c.energy c.temperature c.generator with
  | .ok t => t.accepted
  | .error _ => false

/-- Which of the next `n` moves enter their candidates. -/
def outcomes (problem : Problem α) (config : Config α) (n : Nat) (c : Chain α) : List Bool :=
  notes (step problem config) (fun c _ => [c.enters problem]) n c

/-- What a step does to the temperature and to what it depends on. -/
structure Cooled (config : Config α) (accepted : Bool) (c c' : Chain α) : Prop where
  cooler : c'.cooler = c.cooler.observe accepted c'.energy
  accepts : c'.accepts = c.accepts + if accepted then 1 else 0
  temperature : c'.temperature =
    if config.ReheatsAfter (c.iterations + 1) then
      config.initialTemperature * config.reheatFraction
    else c'.cooler.nextTemperature c.temperature
  reheats : c'.reheats = c.reheats + if config.ReheatsAfter (c.iterations + 1) then 1 else 0

/-- Up to the cooling, a move passes its outcome on to the cooler and counts it. -/
theorem judged_cooler (c : Chain α) (accepted : Bool) (candidate : State α) (energy : α)
    (g : Generator) :
    let c' := c.judged accepted candidate energy g
    c'.cooler = c.cooler.observe accepted c'.energy ∧
      c'.accepts = c.accepts + (if accepted then 1 else 0) ∧
      c'.temperature = c.temperature ∧ c'.reheats = c.reheats ∧
      c'.iterations = c.iterations + 1 := by
  unfold judged settle trackBest record
  cases accepted with
  | false =>
    simp only [Bool.false_eq_true, if_false]
    split <;> simp
  | true =>
    simp only [if_true]
    split <;> simp

theorem cooled_judged (c : Chain α) (accepted : Bool) (candidate : State α) (energy : α)
    (g : Generator) :
    Cooled config accepted c ((c.judged accepted candidate energy g).cool config) := by
  obtain ⟨hcooler, haccepts, htemperature, hreheats, hiterations⟩ :=
    judged_cooler c accepted candidate energy g
  generalize c.judged accepted candidate energy g = d at *
  have hdue : (0 < config.reheatInterval ∧ d.iterations % config.reheatInterval = 0) ↔
      config.ReheatsAfter (c.iterations + 1) := by
    rw [hiterations, Config.ReheatsAfter, Nat.dvd_iff_mod_eq_zero]
  unfold cool
  by_cases hreheat : config.ReheatsAfter (c.iterations + 1)
  · rw [if_pos (hdue.mpr hreheat)]
    refine ⟨hcooler, haccepts, ?_, ?_⟩
    · rw [if_pos hreheat]
      rfl
    · rw [if_pos hreheat, ← hreheats]
  · rw [if_neg (mt hdue.mp hreheat)]
    refine ⟨hcooler, haccepts, ?_, ?_⟩
    · rw [if_neg hreheat, ← htemperature]
    · rw [if_neg hreheat, ← hreheats, Nat.add_zero]

theorem cooled_of_step {c c' : Chain α} (h : c.step problem config = .ok c') :
    Cooled config (c.enters problem) c c' := by
  rw [step_eq_map_trial] at h
  unfold enters
  cases htrial : problem.trial c.state c.energy c.temperature c.generator with
  | error fault =>
    rw [htrial] at h
    cases h
  | ok t =>
    rw [htrial] at h
    cases h
    exact cooled_judged c t.accepted t.candidate t.energy t.generator

/-! ## All moves -/

/-- Since the start of a run the chain has made moves of these outcomes, and its temperatures were
those of the recurrence. -/
structure Followed (config : Config α) (outcomes : List Bool) (c : Chain α) : Prop where
  length_outcomes : outcomes.length = c.iterations
  length_energies : c.energyHistory.toList.length = c.iterations
  accepts : outcomes.count true = c.accepts
  cooler : c.cooler = Cooler.ofMoves config.cooling config.alpha config.huangLambda outcomes
    c.energyHistory.toList
  temperature : c.temperature =
    config.temperatureAt outcomes c.energyHistory.toList c.iterations
  temperatureHistory : c.temperatureHistory.toList =
    (List.range c.iterations).map (config.temperatureAt outcomes c.energyHistory.toList)
  reheats : c.reheats = c.iterations / config.reheatInterval
  evaluations : c.evaluations = c.iterations + 1

theorem followed_start (config : Config α) (initial : State α) (energy : α) :
    Followed config [] (start config initial energy) where
  length_outcomes := rfl
  length_energies := rfl
  accepts := rfl
  cooler := rfl
  temperature := rfl
  temperatureHistory := rfl
  reheats := (Nat.zero_div _).symm
  evaluations := rfl

theorem Followed.step {outcomes : List Bool} {c c' : Chain α} (h : Followed config outcomes c)
    (hstep : c.step problem config = .ok c') :
    Followed config (outcomes ++ [c.enters problem]) c' := by
  have hstepped : Stepped problem c c' := stepped_of_step hstep
  have hcooled : Cooled config (c.enters problem) c c' := cooled_of_step hstep
  have henergies : c'.energyHistory.toList = c.energyHistory.toList ++ [c'.energy] := by
    rw [hstepped.energyHistory, Array.toList_push]
  have hcooler : c'.cooler = Cooler.ofMoves config.cooling config.alpha config.huangLambda
      (outcomes ++ [c.enters problem]) c'.energyHistory.toList := by
    rw [hcooled.cooler, h.cooler, Cooler.observe_ofMoves, henergies]
  -- the temperatures up to this move are not affected by it
  have hbefore : ∀ k ≤ c.iterations,
      config.temperatureAt (outcomes ++ [c.enters problem]) c'.energyHistory.toList k =
        config.temperatureAt outcomes c.energyHistory.toList k := by
    intro k hk
    rw [henergies]
    exact Config.temperatureAt_append (by rw [h.length_outcomes]; exact hk)
      (by rw [h.length_energies]; exact hk)
      _ _
  constructor
  case length_outcomes =>
    rw [List.length_append, h.length_outcomes, hstepped.iterations]
    rfl
  case length_energies =>
    rw [henergies, List.length_append, h.length_energies, hstepped.iterations]
    rfl
  case accepts =>
    rw [List.count_append, h.accepts, hcooled.accepts]
    cases c.enters problem <;> rfl
  case cooler => exact hcooler
  case temperature =>
    have hall : (outcomes ++ [c.enters problem]).length = c.iterations + 1 := by
      rw [List.length_append, h.length_outcomes]
      rfl
    have hall' : c'.energyHistory.toList.length = c.iterations + 1 := by
      rw [henergies, List.length_append, h.length_energies]
      rfl
    rw [hcooled.temperature, hstepped.iterations, Config.temperatureAt,
      List.take_of_length_le (Nat.le_of_eq hall), List.take_of_length_le (Nat.le_of_eq hall'),
      hbefore c.iterations (Nat.le_refl _), ← h.temperature, ← hcooler]
  case temperatureHistory =>
    have hhistory : (List.range c.iterations).map (config.temperatureAt
        (outcomes ++ [c.enters problem]) c'.energyHistory.toList) =
          c.temperatureHistory.toList := by
      rw [h.temperatureHistory]
      refine List.map_congr_left fun k hk => hbefore k ?_
      exact Nat.le_of_lt (List.mem_range.mp hk)
    rw [hstepped.temperatureHistory, Array.toList_push, hstepped.iterations, List.range_succ,
      List.map_append, hhistory, List.map_singleton, hbefore c.iterations (Nat.le_refl _),
      ← h.temperature]
  case reheats => rw [hcooled.reheats, h.reheats, hstepped.iterations, Config.reheats_succ]
  case evaluations => rw [hstepped.evaluations, h.evaluations, hstepped.iterations]

theorem followed_after {initial : State α} {energy : α} {n : Nat} {c : Chain α}
    (h : after (step problem config) n (start config initial energy) = .ok c) :
    Followed config ((start config initial energy).outcomes problem config n) c :=
  notes_induction (Followed config) (fun _ _ _ hf hstep => hf.step hstep)
    (followed_start config initial energy) h

/-! ## Uncancelled runs -/

variable {initial : State α} {energy : α}

/-- The temperature of the recurrence is that of the chain after so many moves, also when later
moves are known. -/
theorem temperature_after {k n : Nat} {c c' : Chain α} (hk : k ≤ n)
    (hc : after (step problem config) k (start config initial energy) = .ok c)
    (hc' : after (step problem config) n (start config initial energy) = .ok c') :
    c.temperature = config.temperatureAt
      ((start config initial energy).outcomes problem config n) c'.energyHistory.toList k := by
  have hfollowed := followed_after hc
  have hiterations : c.iterations = k := by
    rw [iterations_after hc]
    exact Nat.zero_add k
  -- the later moves start from the chain after `k` moves
  rw [← Nat.add_sub_cancel' hk] at hc'
  obtain ⟨u, hu, hrest⟩ := after_add_eq_ok.mp hc'
  cases hc.symm.trans hu
  obtain ⟨later, hlater⟩ := (histories_prefix_of_after hrest).1
  have houtcomes : (start config initial energy).outcomes problem config (k + (n - k)) =
      (start config initial energy).outcomes problem config k ++
        c.outcomes problem config (n - k) := notes_add hc (n - k)
  rw [Nat.add_sub_cancel' hk] at houtcomes
  rw [houtcomes, ← hlater, Config.temperatureAt_append, hfollowed.temperature, hiterations]
  · rw [hfollowed.length_outcomes, hiterations]
  · rw [hfollowed.length_energies, hiterations]

/-- Where a run that is not cancelled ends, and that it did not get below the final temperature
before. -/
theorem exit_of_uncancelled {watch : Watch} {budget : Nat} {reason : StopReason} {c : Chain α}
    (hreason : reason ≠ .cancelled)
    (h : (start config initial energy).advance problem config watch budget = .ok (reason, c)) :
    ∃ n ≤ budget, after (step problem config) n (start config initial energy) = .ok c ∧
      (∀ k < n, ¬ config.temperatureAt ((start config initial energy).outcomes problem config n)
        c.energyHistory.toList k < config.finalTemperature) ∧
      (n = budget ∨ c.temperature < config.finalTemperature) := by
  rw [advance_eq_runUntil] at h
  obtain ⟨n, hn, hafter, hgo, hend⟩ := exit_of_runUntil h
  refine ⟨n, hn, hafter, ?_, ?_⟩
  · intro k hk
    have hsplit : after (step problem config) (k + (n - k)) (start config initial energy) =
        .ok c := by
      rw [Nat.add_sub_cancel' (Nat.le_of_lt hk)]
      exact hafter
    obtain ⟨u, hu, -⟩ := after_add_eq_ok.mp hsplit
    rw [← temperature_after (Nat.le_of_lt hk) hu hafter]
    exact (exit?_eq_none_iff.mp (hgo k hk u hu)).1
  · rcases hend with ⟨hspent, -⟩ | ⟨-, hexit⟩
    · exact Or.inl hspent
    · refine Or.inr ?_
      by_contra hwarm
      unfold exit? at hexit
      rw [if_neg hwarm] at hexit
      split at hexit
      · exact hreason (Option.some.inj hexit).symm
      · cases hexit

end Chain

/-- All temperatures of a run: those at which its moves were made, and the one it ended at. -/
def Result.temperatures (r : Result α) : List α :=
  r.temperatureHistory.toList ++ [r.finalTemperature]

/-- They are those of the recurrence, whether the run was cancelled or not. -/
theorem temperatures_of_run {watch : Watch} {initial : State α} {report : Report α (Result α)}
    (h : run problem config watch initial = .ok report) :
    let r := report.result
    r.temperatures.length = r.iterations + 1 ∧ r.energyHistory.size = r.iterations ∧
      ∃ outcomes, ∀ {k t}, r.temperatures[k]? = some t →
        config.temperatureAt outcomes r.energyHistory.toList k = t := by
  obtain ⟨energy, reason, c, -, hafter, rfl⟩ := exists_after_of_run h
  intro r
  have hfollowed := Chain.followed_after hafter
  generalize (Chain.start config initial energy).outcomes problem config _ = outcomes at hfollowed
  have htemperatures : r.temperatures = (List.range (r.iterations + 1)).map
      (config.temperatureAt outcomes r.energyHistory.toList) := by
    have hhistory : r.temperatureHistory.toList = _ := hfollowed.temperatureHistory
    have hend : r.finalTemperature = _ := hfollowed.temperature
    rw [Result.temperatures, hhistory, hend, List.range_succ, List.map_append, List.map_singleton]
    rfl
  refine ⟨?_, hfollowed.length_energies, outcomes, ?_⟩
  · rw [htemperatures, List.length_map, List.length_range]
  · intro k t ht
    rw [htemperatures, List.getElem?_map, Option.map_eq_some_iff] at ht
    obtain ⟨j, hj, rfl⟩ := ht
    rw [← (List.getElem?_eq_some_iff.mp hj).2, List.getElem_range]

/-- The temperatures of a run that is not cancelled are those of the recurrence, computed from the
outcomes of its moves and the energies it recorded; it makes moves until its budget is spent or the
next temperature is below the final one. Reheats come at multiples of the interval (never, when that
is zero), and each move evaluates one energy. -/
theorem run_temperatures (problem : Problem α) (config : Config α) (initial : State α) :
    (problem.Total → config.validate = .ok () → initial ≠ [] →
      ∃ report, run problem config .never initial = .ok report ∧
        report.result.cancelled = false) ∧
    ∀ watch report, run problem config watch initial = .ok report →
      report.result.cancelled = false →
      ∃ energy, problem.energy initial = .ok energy ∧
        let r := report.result
        let origin := Chain.start config initial energy
        let outcomes := origin.outcomes problem config r.iterations
        let energies := (origin.visits problem config r.iterations).map Visit.energy
        let temperature := config.temperatureAt outcomes energies
        outcomes.length = r.iterations ∧ outcomes.count true = r.accepts ∧
        energies = r.energyHistory.toList ∧
        r.temperatureHistory.toList = (List.range r.iterations).map temperature ∧
        r.finalTemperature = temperature r.iterations ∧
        IsLeast {k | k = config.maxIterations ∨ temperature k < config.finalTemperature}
          r.iterations ∧
        (∀ t ∈ r.temperatureHistory, ¬ t < config.finalTemperature) ∧
        (r.iterations < config.maxIterations → r.finalTemperature < config.finalTemperature) ∧
        r.reheats = r.iterations / config.reheatInterval ∧
        report.evaluations = r.iterations + 1 := by
  refine ⟨?_, ?_⟩
  · intro htotal hvalid hstate
    obtain ⟨energy, henergy⟩ := htotal.energy initial
    obtain ⟨reason, c, hadvance, hrun⟩ := exists_chain htotal hvalid hstate henergy .never
    refine ⟨c.report reason, hrun, ?_⟩
    rw [Chain.advance_eq_runUntil] at hadvance
    obtain ⟨n, -, -, -, ⟨-, rfl⟩ | ⟨-, hexit⟩⟩ := exit_of_runUntil hadvance
    · rfl
    · -- an exit that never comes from the watch
      unfold Chain.exit? at hexit
      split at hexit
      · cases hexit
        rfl
      · cases hexit
  · intro watch report hrun hgoing
    obtain ⟨-, -, energy, henergy, reason, c, hadvance, rfl⟩ := run_eq_ok.mp hrun
    refine ⟨energy, henergy, ?_⟩
    have hreason : reason ≠ .cancelled := by
      rintro rfl
      cases hgoing
    obtain ⟨n, hn, hafter, hwarm, hend⟩ := Chain.exit_of_uncancelled hreason hadvance
    have hiterations : c.iterations = n := by
      rw [Chain.iterations_after hafter]
      exact Nat.zero_add n
    subst hiterations
    have hstart : (Chain.start config initial energy).visit.Sound problem := henergy
    have hfollowed := Chain.followed_after hafter
    have henergies : c.energyHistory.toList =
        ((Chain.start config initial energy).visits problem config c.iterations).map
          Visit.energy := (Chain.tracked_after hstart hafter).energyHistory
    have htemperature := hfollowed.temperature
    have hhistory := hfollowed.temperatureHistory
    rw [henergies] at htemperature hhistory hwarm
    refine ⟨hfollowed.length_outcomes, hfollowed.accepts, henergies.symm, hhistory, htemperature,
      ⟨?_, ?_⟩, ?_, ?_, hfollowed.reheats, hfollowed.evaluations⟩
    · rcases hend with hspent | hcold
      · exact Or.inl hspent
      · rw [htemperature] at hcold
        exact Or.inr hcold
    · rintro k (rfl | hcold)
      · exact hn
      · by_contra hearly
        exact hwarm k (Nat.lt_of_not_le hearly) hcold
    · intro t ht
      have hmem : t ∈ c.temperatureHistory.toList := Array.mem_toList_iff.mpr ht
      rw [hhistory] at hmem
      obtain ⟨k, hk, rfl⟩ := List.mem_map.mp hmem
      exact hwarm k (List.mem_range.mp hk)
    · intro hshort
      rcases hend with hspent | hcold
      · exact absurd hspent (Nat.ne_of_lt hshort)
      · exact hcold

def threeMoves : Config Float :=
  { Config.standard with maxIterations := 3, reheatInterval := 2 }

/-- The second of three moves down the slide is followed by a reheat to half the initial
temperature. -/
theorem run_temperatures_slide :
    Walk.slide.Total ∧ threeMoves.validate = .ok () ∧
    ∃ report, run Walk.slide threeMoves .never [3.0, 4.0, 5.0, 6.0] = .ok report ∧
      report.result.cancelled = false ∧ report.result.iterations = 3 ∧
      report.result.temperatureHistory.toList = [100.0, 95.0, 50.0] ∧
      report.result.reheats = 1 ∧ report.evaluations = 4 := by
  have hvalid : threeMoves.validate = .ok () := by rfl
  have hpromise := run_temperatures Walk.slide threeMoves [3.0, 4.0, 5.0, 6.0]
  obtain ⟨report, hreport, hgoing⟩ := hpromise.1 Walk.slide_total hvalid (List.cons_ne_nil _ _)
  obtain ⟨energy, henergy, -, -, -, htemperatures, -, -, -, -, hreheats, hevaluations⟩ :=
    hpromise.2 .never report hreport hgoing
  have hstart : Walk.slide.energy [3.0, 4.0, 5.0, 6.0] = .ok 86.0 := by rfl
  cases hstart.symm.trans henergy
  have hevaluated : (run Walk.slide threeMoves .never [3.0, 4.0, 5.0, 6.0]).toOption.map
      (fun r => r.result.iterations) = some 3 := by rfl
  rw [hreport] at hevaluated
  have hthree : report.result.iterations = 3 := Option.some.inj hevaluated
  -- the recurrence, from the outcomes and energies of the three moves
  have houtcomes : (Chain.start threeMoves [3.0, 4.0, 5.0, 6.0] 86.0).outcomes Walk.slide
      threeMoves 3 = [true, true, true] := by rfl
  have hvisits : ((Chain.start threeMoves [3.0, 4.0, 5.0, 6.0] 86.0).visits Walk.slide
      threeMoves 3).map Visit.energy = [50.0, 25.0, 9.0] := by rfl
  have hrecurrence : (List.range 3).map
      (threeMoves.temperatureAt [true, true, true] [50.0, 25.0, 9.0]) = [100.0, 95.0, 50.0] := by
    rfl
  rw [hthree, houtcomes, hvisits, hrecurrence] at htemperatures
  rw [hthree] at hreheats hevaluations
  exact ⟨Walk.slide_total, hvalid, report, hreport, hgoing, hthree, htemperatures, hreheats,
    hevaluations⟩

end ThermalSearch.Annealing
