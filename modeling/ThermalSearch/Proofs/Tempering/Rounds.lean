import Mathlib.Data.List.Perm.Basic
import ThermalSearch.Proofs.Best
import ThermalSearch.Proofs.Iteration
import ThermalSearch.Proofs.Trial
import ThermalSearch.Tempering.Run

/-!
# Tempering runs round by round

A tempering run is the loop of `Ensemble.round` with one exit, and a round is a local phase
followed by what concludes it: the best is brought up to date, states are exchanged, and an
adaptive ladder may be moved. This module says what each part does and what it leaves alone, so
that a fact about runs is proved for one round and a fact about sweeps for one move.
-/

namespace ThermalSearch.Ladder

variable {α : Type} [Scalar α]

/-! ## Ladders -/

theorem length_geometric (lowest highest : α) (n : Nat) :
    (geometric lowest highest n).length = n := by
  unfold geometric
  split
  next hone => rw [hone, List.length_singleton]
  next => rw [List.length_map, List.length_range]

theorem length_adaptAbove (low : α) (rungs rates : List α) :
    (adaptAbove low rungs rates).1.length = rungs.length := by
  fun_induction adaptAbove low rungs rates with
  | case1 low t high rungs below above rates place rest moved hrest ih =>
    rw [hrest] at ih
    exact congrArg (· + 1) ih
  | case2 => rfl

theorem length_adapt (temperatures rates : List α) :
    (adapt temperatures rates).1.length = temperatures.length := by
  unfold adapt
  cases temperatures with
  | nil => rfl
  | cons low rungs =>
    dsimp only
    split
    · rfl
    · rw [List.length_cons, List.length_cons, length_adaptAbove]

end ThermalSearch.Ladder

namespace ThermalSearch.Tempering

variable {α : Type}

namespace Replica

/-- Where the replica is. -/
def visit (r : Replica α) : Visit α := { state := r.state, energy := r.energy }

/-- The best its rung remembers. -/
def best (r : Replica α) : Visit α := { state := r.bestState, energy := r.bestEnergy }

/-! ## Moves and sweeps -/

variable [Scalar α] {problem : Problem α} {temperature : α}

/-- The replica after its candidate was judged. -/
def judged (r : Replica α) (accepted : Bool) (candidate : State α) (energy : α) (g : Generator) :
    Replica α :=
  let r := { r with
    evaluations := r.evaluations + 1, generator := g, moves := r.moves + 1 }
  if accepted then r.enter candidate energy else r

theorem move_eq_map_trial (r : Replica α) : r.move problem temperature =
    (problem.trial r.state r.energy temperature r.generator).map fun t =>
      r.judged t.accepted t.candidate t.energy t.generator :=
  problem.judge_eq_map_trial r.state r.energy temperature r.generator r.judged

/-- All that a move does: it judges a proposal by the Metropolis rule. -/
theorem move_eq_ok {r r' : Replica α} :
    r.move problem temperature = .ok r' ↔
      ∃ candidate g energy accepted g', problem.propose r.state r.generator = .ok (candidate, g) ∧
        problem.energy candidate = .ok energy ∧
        (metropolis r.energy energy temperature).decide g = (accepted, g') ∧
        r' = r.judged accepted candidate energy g' := by
  unfold move
  constructor
  · intro h
    rcases bind_eq_ok_iff.mp h with ⟨⟨candidate, g⟩, hpropose, h⟩
    rcases bind_eq_ok_iff.mp h with ⟨energy, henergy, h⟩
    cases h
    exact ⟨candidate, g, energy, _, _, hpropose, henergy, rfl, rfl⟩
  · rintro ⟨candidate, g, energy, accepted, g', hpropose, henergy, hdecide, rfl⟩
    refine bind_eq_ok_iff.mpr ⟨(candidate, g), hpropose, ?_⟩
    refine bind_eq_ok_iff.mpr ⟨energy, henergy, ?_⟩
    simp only [hdecide]
    rfl

theorem move_total (htotal : problem.Total) (r : Replica α) :
    ∃ r', r.move problem temperature = .ok r' := by
  rcases htotal.propose r.state r.generator with ⟨⟨candidate, g⟩, hpropose⟩
  rcases htotal.energy candidate with ⟨energy, henergy⟩
  exact ⟨_, move_eq_ok.mpr ⟨candidate, g, energy, _, _, hpropose, henergy, rfl, rfl⟩⟩

/-- A move stays where it is, or enters a candidate of finite energy and counts it. -/
theorem move_cases {r r' : Replica α} (h : r.move problem temperature = .ok r') :
    (r'.visit = r.visit ∧ r'.best = r.best ∧ r'.accepts = r.accepts) ∨
      (r'.visit.Sound problem ∧ r'.visit.IsFinite ∧ r'.best = r.best.better r'.visit ∧
        r'.accepts = r.accepts + 1) := by
  rcases move_eq_ok.mp h with ⟨candidate, g, energy, accepted, g', -, henergy, hdecide, rfl⟩
  cases accepted with
  | false => exact Or.inl ⟨rfl, rfl, rfl⟩
  | true =>
    have hfinite : Scalar.isFinite energy = true := isFinite_of_metropolis hdecide
    refine Or.inr ?_
    unfold judged enter Visit.better
    simp only [if_true]
    split <;> simp_all [visit, best, Visit.Sound, Visit.IsFinite]

theorem sweep_eq_after (n : Nat) (r : Replica α) :
    r.sweep problem temperature n = after (move problem temperature) n r := by
  induction n generalizing r with
  | zero => rfl
  | succ n ih =>
    have hrest : sweep problem temperature n = after (move problem temperature) n := funext ih
    rw [sweep, after, hrest]

end Replica

/-! ## Local phases -/

variable [Scalar α] {problem : Problem α} {config : Config α}

theorem localPhase_cons_eq_ok {sweeps : Nat} {temperature : α} {temperatures : List α}
    {r : Replica α} {replicas after : List (Replica α)} :
    localPhase problem sweeps (temperature :: temperatures) (r :: replicas) = .ok after ↔
      ∃ r' rest, r.sweep problem temperature sweeps = .ok r' ∧
        localPhase problem sweeps temperatures replicas = .ok rest ∧ after = r' :: rest := by
  rw [localPhase, bind_eq_ok_iff]
  constructor
  · rintro ⟨r', hr, h⟩
    rcases bind_eq_ok_iff.mp h with ⟨rest, hrest, hafter⟩
    cases hafter
    exact ⟨r', rest, hr, hrest, rfl⟩
  · rintro ⟨r', rest, hr, hrest, rfl⟩
    exact ⟨r', hr, bind_eq_ok_iff.mpr ⟨rest, hrest, rfl⟩⟩

theorem localPhase_total (htotal : problem.Total) (sweeps : Nat) (temperatures : List α)
    (replicas : List (Replica α)) :
    ∃ after, localPhase problem sweeps temperatures replicas = .ok after := by
  induction temperatures generalizing replicas with
  | nil => exact ⟨replicas, by unfold localPhase; rfl⟩
  | cons temperature temperatures ih =>
    cases replicas with
    | nil => exact ⟨[], by unfold localPhase; rfl⟩
    | cons r replicas =>
      have hsweep : ∃ r', r.sweep problem temperature sweeps = .ok r' := by
        rw [Replica.sweep_eq_after]
        exact after_total (Replica.move_total htotal) sweeps r
      rcases hsweep with ⟨r', hr⟩
      rcases ih replicas with ⟨rest, hrest⟩
      exact ⟨r' :: rest, localPhase_cons_eq_ok.mpr ⟨r', rest, hr, hrest, rfl⟩⟩

/-! ## Exchanges

An exchange hands over states together with their energies; what a rung keeps for itself is any
view of the replica that does not look at the two. -/

/-- The view `own` of a replica does not depend on its state and energy. -/
def KeptByRung {β : Type} (own : Replica α → β) : Prop :=
  ∀ (r : Replica α) (state : State α) (energy : α),
    own { r with state := state, energy := energy } = own r

omit [Scalar α] in
theorem keptByRung_best : KeptByRung (Replica.best (α := α)) := fun _ _ _ => rfl

omit [Scalar α] in
/-- A pair after it was offered an exchange. -/
theorem offered_pair {β : Type} {own : Replica α → β} (hown : KeptByRung own) {accepted : Bool}
    {a b a' b' : Replica α} (h : (if accepted then a.swap b else (a, b)) = (a', b')) :
    own a' = own a ∧ own b' = own b ∧ [a'.visit, b'.visit].Perm [a.visit, b.visit] := by
  cases accepted with
  | false =>
    cases h
    exact ⟨rfl, rfl, List.Perm.refl _⟩
  | true =>
    cases h
    exact ⟨hown a b.state b.energy, hown b a.state a.energy, List.Perm.swap _ _ _⟩

theorem exchangePairs_map_own {β : Type} {own : Replica α → β} (hown : KeptByRung own)
    (temperatures : List α) (replicas : List (Replica α)) (tallies : List Tally)
    (g : Generator) :
    (exchangePairs temperatures replicas tallies g).replicas.map own = replicas.map own := by
  fun_induction exchangePairs temperatures replicas tallies g with
  | case1 _ _ _ _ _ _ _ _ _ _ _ _ _ _ hpair _ ih =>
    rcases offered_pair hown hpair with ⟨ha, hb, -⟩
    simp only [List.map_cons, ha, hb]
    exact congrArg (fun rest => own _ :: own _ :: rest) ih
  | case2 => rfl

/-- No visit is lost, doubled or torn apart. -/
theorem exchangePairs_visits_perm (temperatures : List α) (replicas : List (Replica α))
    (tallies : List Tally) (g : Generator) :
    ((exchangePairs temperatures replicas tallies g).replicas.map Replica.visit).Perm
      (replicas.map Replica.visit) := by
  fun_induction exchangePairs temperatures replicas tallies g with
  | case1 _ _ _ _ _ _ _ _ _ _ _ _ _ _ hpair _ ih =>
    rcases offered_pair keptByRung_best hpair with ⟨-, -, hperm⟩
    exact hperm.append ih
  | case2 => exact List.Perm.refl _

theorem exchangePhase_map_own {β : Type} {own : Replica α → β} (hown : KeptByRung own)
    (round : Nat) (temperatures : List α) (replicas : List (Replica α)) (tallies : List Tally)
    (g : Generator) :
    (exchangePhase round temperatures replicas tallies g).replicas.map own =
      replicas.map own := by
  unfold exchangePhase
  split
  · exact exchangePairs_map_own hown _ _ _ _
  · -- the coldest rung sits out
    simp only [List.map_append, exchangePairs_map_own hown]
    rw [← List.map_append, List.take_append_drop]

theorem exchangePhase_visits_perm (round : Nat) (temperatures : List α)
    (replicas : List (Replica α)) (tallies : List Tally) (g : Generator) :
    ((exchangePhase round temperatures replicas tallies g).replicas.map Replica.visit).Perm
      (replicas.map Replica.visit) := by
  unfold exchangePhase
  split
  · exact exchangePairs_visits_perm _ _ _ _
  · have hrest := exchangePairs_visits_perm (temperatures.drop 1) (replicas.drop 1)
      (tallies.drop 1) g
    have hsplit : replicas.map Replica.visit =
        (replicas.take 1).map Replica.visit ++ (replicas.drop 1).map Replica.visit := by
      rw [← List.map_append, List.take_append_drop]
    simp only [List.map_append]
    rw [hsplit]
    exact hrest.append_left _

/-! ## Rounds -/

namespace Ensemble

/-- The best of the whole ensemble. -/
def best (e : Ensemble α) : Visit α := { state := e.bestState, energy := e.bestEnergy }

omit [Scalar α] in
@[simp] theorem best_mk (e : Ensemble α) (v : Visit α) :
    { e with bestState := v.state, bestEnergy := v.energy }.best = v := rfl

theorem noteBest_eq (e : Ensemble α) (r : Replica α) : e.noteBest r =
    { e with
      bestState := (e.best.better r.best).state
      bestEnergy := (e.best.better r.best).energy } := by
  unfold noteBest Visit.better
  split
  next himproves =>
    have hbetter : improves r.best.energy e.best.energy = true := himproves
    rw [if_pos hbetter]
    rfl
  next hkept =>
    have hworse : ¬ improves r.best.energy e.best.energy = true := hkept
    rw [if_neg hworse]
    rfl

theorem foldl_noteBest (replicas : List (Replica α)) (e : Ensemble α) :
    replicas.foldl noteBest e =
      { e with
        bestState := ((replicas.map Replica.best).foldl Visit.better e.best).state
        bestEnergy := ((replicas.map Replica.best).foldl Visit.better e.best).energy } := by
  induction replicas generalizing e with
  | nil => rfl
  | cons r replicas ih =>
    rw [List.foldl_cons, noteBest_eq, ih]
    simp

/-- The best becomes the left fold over the bests of the rungs; nothing else changes. -/
theorem trackBest_eq (e : Ensemble α) : e.trackBest =
    { e with
      bestState := ((e.replicas.map Replica.best).foldl Visit.better e.best).state
      bestEnergy := ((e.replicas.map Replica.best).foldl Visit.better e.best).energy } :=
  foldl_noteBest e.replicas e

@[simp] theorem best_trackBest (e : Ensemble α) :
    e.trackBest.best = (e.replicas.map Replica.best).foldl Visit.better e.best := by
  rw [trackBest_eq]
  rfl

@[simp] theorem replicas_trackBest (e : Ensemble α) : e.trackBest.replicas = e.replicas := by
  rw [trackBest_eq]

@[simp] theorem traces_trackBest (e : Ensemble α) : e.trackBest.traces = e.traces := by
  rw [trackBest_eq]

/-- What follows the local phase of a round. -/
def conclude (config : Config α) (e : Ensemble α) : Ensemble α :=
  let e := e.trackBest.exchangeStates
  if e.adaptsNow config then e.adaptLadder else e

theorem round_eq_ok {e e' : Ensemble α} :
    e.round problem config = .ok e' ↔
      ∃ replicas, localPhase problem config.sweepsPerSwap e.temperatures e.replicas =
        .ok replicas ∧ e' = { e with replicas := replicas }.conclude config := by
  unfold round
  rw [bind_eq_ok_iff]
  constructor
  · rintro ⟨replicas, hlocal, h⟩
    exact ⟨replicas, hlocal, (Except.ok.inj h).symm⟩
  · rintro ⟨replicas, hlocal, rfl⟩
    exact ⟨replicas, hlocal, rfl⟩

theorem round_total (htotal : problem.Total) (e : Ensemble α) :
    ∃ e', e.round problem config = .ok e' := by
  rcases localPhase_total htotal config.sweepsPerSwap e.temperatures e.replicas
    with ⟨replicas, hlocal⟩
  exact ⟨_, round_eq_ok.mpr ⟨replicas, hlocal, rfl⟩⟩

/-- Whether or not the ladder is adapted, what concludes a round keeps what `own` sees of each
rung, passes the visits around, notes the energies and counts the round. -/
theorem conclude_frame (config : Config α) (e : Ensemble α) : ∃ temperatures tallies journal,
    e.conclude config =
      { e.trackBest.exchangeStates with
        temperatures := temperatures, tallies := tallies, journal := journal } := by
  unfold conclude
  dsimp only
  split
  · exact ⟨_, _, _, rfl⟩
  · exact ⟨_, _, _, rfl⟩

/-! ## Runs -/

/-- Why a run would end before its next round. -/
def exit? (watch : Watch) (e : Ensemble α) : Option Bool :=
  if watch e.poll then some true else none

theorem advance_eq_runUntil (watch : Watch) (remaining : Nat) (e : Ensemble α) :
    e.advance problem config watch remaining =
      runUntil (exit? watch) false (round problem config) remaining e := by
  induction remaining generalizing e with
  | zero => rfl
  | succ remaining ih =>
    have hrest : advance problem config watch remaining =
        runUntil (exit? watch) false (round problem config) remaining := funext ih
    by_cases hstop : watch e.poll
    · have hexit : exit? watch e = some true := if_pos hstop
      rw [advance, runUntil, if_pos hstop, hexit]
    · have hexit : exit? watch e = none := if_neg hstop
      rw [advance, runUntil, if_neg hstop, hexit, hrest]

/-! ### Reports

What an ensemble reported has no influence on what it does. -/

/-- The ensemble, had it reported nothing. -/
def unreported (e : Ensemble α) : Ensemble α := { e with journal := #[] }

theorem conclude_unreported (config : Config α) (e : Ensemble α) :
    (e.unreported.conclude config).unreported = (e.conclude config).unreported := by
  simp only [conclude, trackBest_eq, adaptsNow, exchangeStates, unreported]
  split
  · rfl
  · rfl

theorem round_unreported (e : Ensemble α) :
    (e.unreported.round problem config).map unreported =
      (e.round problem config).map unreported := by
  have hlocal : localPhase problem config.sweepsPerSwap e.unreported.temperatures
      e.unreported.replicas =
        localPhase problem config.sweepsPerSwap e.temperatures e.replicas := rfl
  unfold round
  rw [hlocal]
  cases localPhase problem config.sweepsPerSwap e.temperatures e.replicas with
  | error fault => rfl
  | ok replicas =>
    exact congrArg Except.ok (conclude_unreported config { e with replicas := replicas })

theorem advance_unreported (watch : Watch) (remaining : Nat) {e e' : Ensemble α}
    (h : e.unreported = e'.unreported) :
    (e.advance problem config watch remaining).map (Prod.map id unreported) =
      (e'.advance problem config watch remaining).map (Prod.map id unreported) := by
  rw [advance_eq_runUntil, advance_eq_runUntil]
  refine runUntil_congr ?_ ?_ remaining h
  · intro s s' hview
    have hexit : exit? watch s.unreported = exit? watch s'.unreported := by rw [hview]
    exact hexit
  · intro s s' hview
    rw [← round_unreported s, hview, round_unreported]

/-- No round looks at the number of rounds there are, nor at whether the replicas move at the same
time: both are reported, and that is all. -/
theorem advance_start_settings (problem : Problem α) (config : Config α) (totalSwaps : Nat)
    (parallel : Bool) (initial : State α) (energy : α) (watch : Watch) (remaining : Nat) :
    let config' := { config with totalSwaps := totalSwaps, parallel := parallel }
    ((start config' initial energy).advance problem config' watch remaining).map
        (Prod.map id unreported) =
      ((start config initial energy).advance problem config watch remaining).map
        (Prod.map id unreported) := by
  intro config'
  have hloop : advance problem config' watch remaining =
      advance problem config watch remaining := by
    funext e
    rw [advance_eq_runUntil, advance_eq_runUntil]
    rfl
  rw [hloop]
  exact advance_unreported watch remaining rfl

omit [Scalar α] in
theorem evaluations_of_unreported {e e' : Ensemble α} (h : e.unreported = e'.unreported) :
    e.evaluations = e'.evaluations := by
  have hcount : e.unreported.evaluations = e'.unreported.evaluations := by rw [h]
  exact hcount

/-- Ensembles that differ in their reports at most have the same result. -/
theorem result_of_unreported {e e' : Ensemble α} (h : e.unreported = e'.unreported)
    (cancelled cancelled' : Bool) :
    e.result cancelled = { e'.result cancelled' with cancelled := cancelled } := by
  have hresult : e.unreported.result cancelled = e'.unreported.result cancelled := by rw [h]
  exact hresult

/-! ### Counting -/

theorem rounds_of_round {e e' : Ensemble α} (h : e.round problem config = .ok e') :
    e'.rounds = e.rounds + 1 := by
  rcases round_eq_ok.mp h with ⟨replicas, -, rfl⟩
  rcases conclude_frame config { e with replicas := replicas }
    with ⟨temperatures, tallies, journal, hframe⟩
  rw [hframe, trackBest_eq]
  rfl

theorem rounds_after {n : Nat} {e e' : Ensemble α}
    (h : after (round problem config) n e = .ok e') : e'.rounds = e.rounds + n :=
  count_after rounds_of_round h

end Ensemble

variable {watch : Watch} {initial : State α}

/-- What a run consists of when it returns. -/
theorem run_eq_ok {report : Report α (Result α)} :
    run problem config watch initial = .ok report ↔
      config.validate = .ok () ∧ initial ≠ [] ∧ config.reserve = .ok () ∧
        ∃ energy, problem.energy initial = .ok energy ∧
          ∃ cancelled e, (Ensemble.start config initial energy).advance problem config watch
            config.totalSwaps = .ok (cancelled, e) ∧ report = e.report cancelled := by
  refine admission_eq_ok.trans (and_congr_right fun _ => and_congr_right fun _ => ?_)
  rw [bind_eq_ok_iff]
  constructor
  · rintro ⟨⟨⟩, hreserve, h⟩
    rcases bind_eq_ok_iff.mp h with ⟨energy, henergy, h⟩
    rcases bind_eq_ok_iff.mp h with ⟨⟨cancelled, e⟩, hadvance, hreport⟩
    cases hreport
    exact ⟨liftFault_eq_ok_iff.mp hreserve, energy, liftFault_eq_ok_iff.mp henergy, cancelled, e,
      liftFault_eq_ok_iff.mp hadvance, rfl⟩
  · rintro ⟨hreserve, energy, henergy, cancelled, e, hadvance, rfl⟩
    refine ⟨(), liftFault_eq_ok_iff.mpr hreserve, ?_⟩
    refine bind_eq_ok_iff.mpr ⟨energy, liftFault_eq_ok_iff.mpr henergy, ?_⟩
    exact bind_eq_ok_iff.mpr ⟨(cancelled, e), liftFault_eq_ok_iff.mpr hadvance, rfl⟩

/-- With accepted settings and a state that has coordinates, only room or the problem can be
wanting. -/
theorem run_of_admitted (watch : Watch) (hvalid : config.validate = .ok ())
    (hstate : initial ≠ []) : run problem config watch initial =
      (do
        config.reserve
        let energy ← problem.energy initial
        let (cancelled, e) ← (Ensemble.start config initial energy).advance problem config watch
          config.totalSwaps
        return e.report cancelled).mapError Failure.faulted := by
  unfold run
  rw [hvalid]
  cases initial with
  | nil => exact absurd rfl hstate
  | cons x xs =>
    dsimp only [bind, Except.bind, liftM, monadLift, MonadLift.monadLift]
    cases config.reserve with
    | error fault => rfl
    | ok =>
      cases problem.energy (x :: xs) with
      | error fault => rfl
      | ok energy =>
        dsimp only [Except.mapError]
        cases (Ensemble.start config (x :: xs) energy).advance problem config watch
          config.totalSwaps with
        | error fault => rfl
        | ok out => rfl

/-- A run that returns made as many rounds as it says. -/
theorem exists_after_of_run {report : Report α (Result α)}
    (h : run problem config watch initial = .ok report) :
    ∃ energy cancelled e, problem.energy initial = .ok energy ∧
      after (Ensemble.round problem config) report.result.rounds
        (Ensemble.start config initial energy) = .ok e ∧ report = e.report cancelled := by
  rcases run_eq_ok.mp h with ⟨-, -, -, energy, henergy, cancelled, e, hadvance, rfl⟩
  rw [Ensemble.advance_eq_runUntil] at hadvance
  -- the loop was left after `n` rounds, and its ensemble counted them
  rcases runUntil_eq_ok hadvance with ⟨n, -, hafter⟩
  have hn : e.rounds = n := by
    have hcount := Ensemble.rounds_after hafter
    rw [hcount]
    exact Nat.zero_add n
  exact ⟨energy, cancelled, e, henergy, by rw [← hn] at hafter; exact hafter, rfl⟩

/-- Checked settings, a state with coordinates, room for what it keeps and a total problem are all
a run needs. -/
theorem run_total (htotal : problem.Total) (hvalid : config.validate = .ok ())
    (hstate : initial ≠ []) (hroom : config.reserve = .ok ()) :
    ∃ report, run problem config watch initial = .ok report := by
  rcases htotal.energy initial with ⟨energy, henergy⟩
  have hloop : ∃ out, (Ensemble.start config initial energy).advance problem config watch
      config.totalSwaps = .ok out := by
    rw [Ensemble.advance_eq_runUntil]
    exact runUntil_total (Ensemble.round_total htotal) _ _
  rcases hloop with ⟨⟨cancelled, e⟩, hadvance⟩
  exact ⟨e.report cancelled,
    run_eq_ok.mpr ⟨hvalid, hstate, hroom, energy, henergy, cancelled, e, hadvance, rfl⟩⟩

/-- Of a total problem, with settings that pass, a run returns exactly when there is room for it,
whether or not it is told to stop. -/
theorem exists_run_iff (htotal : problem.Total) (hvalid : config.validate = .ok ())
    (hstate : initial ≠ []) :
    (∃ report, run problem config watch initial = .ok report) ↔ config.reserve = .ok () := by
  constructor
  · rintro ⟨report, hrun⟩
    exact (run_eq_ok.mp hrun).2.2.1
  · exact run_total htotal hvalid hstate

/-- The smallest run in which all parts of a round have something to do. -/
def oneRound : Config Float :=
  { Config.standard with replicas := 2, sweepsPerSwap := 1, totalSwaps := 1 }

end ThermalSearch.Tempering
