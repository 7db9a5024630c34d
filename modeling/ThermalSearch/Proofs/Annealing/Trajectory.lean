import ThermalSearch.Annealing.Run
import ThermalSearch.Proofs.Best
import ThermalSearch.Proofs.Iteration
import ThermalSearch.Proofs.Trial

/-!
# Annealing runs step by step

An annealing run is the loop of `Chain.step` with two exits before the budget is spent. This
module says what a step and a run consist of, so that a fact about runs is proved for one step.
-/

namespace ThermalSearch.Annealing

variable {α : Type} [Scalar α] {problem : Problem α} {config : Config α}

namespace Chain

/-- Why a run would end at this point although there is budget left. -/
def exit? (config : Config α) (watch : Watch) (c : Chain α) : Option StopReason :=
  if c.temperature < config.finalTemperature then some .frozen
  else if watch c.poll then some .cancelled
  else none

theorem advance_eq_runUntil (watch : Watch) (budget : Nat) (c : Chain α) :
    c.advance problem config watch budget =
      runUntil (exit? config watch) .budgetSpent (step problem config) budget c := by
  induction budget generalizing c with
  | zero => rfl
  | succ budget ih =>
    have hrest : advance problem config watch budget =
        runUntil (exit? config watch) .budgetSpent (step problem config) budget := funext ih
    by_cases hcold : c.temperature < config.finalTemperature
    · have hexit : exit? config watch c = some .frozen := if_pos hcold
      rw [advance, runUntil, if_pos hcold, hexit]
    · by_cases hstop : watch c.poll
      · have hexit : exit? config watch c = some .cancelled := by
          rw [exit?, if_neg hcold, if_pos hstop]
        rw [advance, runUntil, if_neg hcold, if_pos hstop, hexit]
      · have hexit : exit? config watch c = none := by
          rw [exit?, if_neg hcold, if_neg hstop]
        rw [advance, runUntil, if_neg hcold, if_neg hstop, hexit, hrest]

/-- The chain after a candidate was judged: entered or not, compared with the best, recorded. -/
def judged (c : Chain α) (accepted : Bool) (candidate : State α) (energy : α) (g : Generator) :
    Chain α :=
  (({ c with generator := g, evaluations := c.evaluations + 1 }.settle accepted candidate
    energy).trackBest).record accepted

theorem step_eq_map_trial (c : Chain α) : c.step problem config =
    (problem.trial c.state c.energy c.temperature c.generator).map fun t =>
      (c.judged t.accepted t.candidate t.energy t.generator).cool config :=
  problem.judge_eq_map_trial c.state c.energy c.temperature c.generator
    fun accepted candidate energy g => (c.judged accepted candidate energy g).cool config

/-- All that a step does: it judges a proposal by the Metropolis rule, and cools. -/
theorem step_eq_ok {c c' : Chain α} :
    c.step problem config = .ok c' ↔
      ∃ candidate g energy accepted g', problem.propose c.state c.generator = .ok (candidate, g) ∧
        problem.energy candidate = .ok energy ∧
        (metropolis c.energy energy c.temperature).decide g = (accepted, g') ∧
        c' = (c.judged accepted candidate energy g').cool config := by
  unfold step
  constructor
  · intro h
    rcases bind_eq_ok_iff.mp h with ⟨⟨candidate, g⟩, hpropose, h⟩
    rcases bind_eq_ok_iff.mp h with ⟨energy, henergy, h⟩
    cases h
    exact ⟨candidate, g, energy, _, _, hpropose, henergy, rfl, rfl⟩
  · rintro ⟨candidate, g, energy, accepted, g', hpropose, henergy, hdecide, rfl⟩
    refine bind_eq_ok_iff.mpr ⟨(candidate, g), hpropose, ?_⟩
    refine bind_eq_ok_iff.mpr ⟨energy, henergy, ?_⟩
    simp only [hdecide]
    rfl

theorem step_total (htotal : problem.Total) (c : Chain α) :
    ∃ c', c.step problem config = .ok c' := by
  rcases htotal.propose c.state c.generator with ⟨⟨candidate, g⟩, hpropose⟩
  rcases htotal.energy candidate with ⟨energy, henergy⟩
  exact ⟨_, step_eq_ok.mpr ⟨candidate, g, energy, _, _, hpropose, henergy, rfl, rfl⟩⟩

/-! ## What a step changes -/

/-- Where the chain is. -/
def visit (c : Chain α) : Visit α := { state := c.state, energy := c.energy }

/-- The best it remembers. -/
def best (c : Chain α) : Visit α := { state := c.bestState, energy := c.bestEnergy }

/-- Cooling, with or without a reheat, is about the temperature only. -/
theorem cool_frame (config : Config α) (c : Chain α) : ∃ temperature reheats journal, c.cool config =
    { c with temperature := temperature, reheats := reheats, journal := journal } := by
  unfold cool
  split
  · exact ⟨_, _, _, rfl⟩
  · exact ⟨_, _, _, rfl⟩

theorem judged_visit (c : Chain α) (accepted : Bool) (candidate : State α) (energy : α)
    (g : Generator) : (c.judged accepted candidate energy g).visit =
      if accepted then { state := candidate, energy := energy } else c.visit := by
  unfold judged settle trackBest
  cases accepted
  · simp only [Bool.false_eq_true, if_false]
    split <;> rfl
  · simp only [if_true]
    split <;> rfl

/-- Whether or not the candidate was entered, the present state is compared with the best. -/
theorem judged_best (c : Chain α) (accepted : Bool) (candidate : State α) (energy : α)
    (g : Generator) : (c.judged accepted candidate energy g).best =
      c.best.better (c.judged accepted candidate energy g).visit := by
  rw [judged_visit]
  unfold judged settle trackBest Visit.better
  cases accepted
  · simp only [Bool.false_eq_true, if_false]
    split <;> simp [*, record, best, visit]
  · simp only [if_true]
    split <;> simp [*, record, best]

/-- What a step does to the chain, the temperature and the generator left aside. -/
structure Stepped (problem : Problem α) (c c' : Chain α) : Prop where
  visit : c'.visit = c.visit ∨ c'.visit.Sound problem
  best : c'.best = c.best.better c'.visit
  iterations : c'.iterations = c.iterations + 1
  moves : c'.accepts + c'.rejects = c.accepts + c.rejects + 1
  evaluations : c'.evaluations = c.evaluations + 1
  energyHistory : c'.energyHistory = c.energyHistory.push c'.energy
  temperatureHistory : c'.temperatureHistory = c.temperatureHistory.push c.temperature

theorem stepped_judged {candidate : State α} {energy : α}
    (henergy : problem.energy candidate = .ok energy) (c : Chain α) (accepted : Bool)
    (g : Generator) : Stepped problem c (c.judged accepted candidate energy g) := by
  constructor
  case visit =>
    rw [judged_visit]
    cases accepted
    · exact Or.inl rfl
    · exact Or.inr henergy
  case best => exact judged_best c accepted candidate energy g
  -- the counts and the histories: entered or not, the best or not
  all_goals
    unfold judged settle trackBest record
    cases accepted
    · simp only [Bool.false_eq_true, if_false]
      split <;> simp <;> omega
    · simp only [if_true]
      split <;> simp <;> omega

theorem stepped_of_step {c c' : Chain α} (h : c.step problem config = .ok c') :
    Stepped problem c c' := by
  rcases step_eq_ok.mp h with ⟨candidate, _, energy, accepted, g, -, henergy, -, rfl⟩
  rcases cool_frame config (c.judged accepted candidate energy g)
    with ⟨temperature, reheats, journal, hcool⟩
  rw [hcool]
  rcases stepped_judged henergy c accepted g with ⟨hvisit, hbest, hcount, hmoves, hcalls, hs, hts⟩
  exact ⟨hvisit, hbest, hcount, hmoves, hcalls, hs, hts⟩

theorem iterations_after {n : Nat} {c c' : Chain α}
    (h : after (step problem config) n c = .ok c') : c'.iterations = c.iterations + n :=
  count_after (fun hstep => (stepped_of_step hstep).iterations) h

end Chain

/-! ## Runs -/

variable {watch : Watch} {initial : State α}

/-- What a run consists of when it returns. -/
theorem run_eq_ok {report : Report α (Result α)} :
    run problem config watch initial = .ok report ↔
      config.validate = .ok () ∧ initial ≠ [] ∧ ∃ energy, problem.energy initial = .ok energy ∧
        ∃ reason c, (Chain.start config initial energy).advance problem config watch
          config.maxIterations = .ok (reason, c) ∧ report = c.report reason := by
  refine admission_eq_ok.trans (and_congr_right fun _ => and_congr_right fun _ => ?_)
  rw [bind_eq_ok_iff]
  refine exists_congr fun energy => and_congr liftFault_eq_ok_iff ?_
  rw [bind_eq_ok_iff]
  constructor
  · rintro ⟨⟨reason, c⟩, hadvance, hreport⟩
    cases hreport
    exact ⟨reason, c, liftFault_eq_ok_iff.mp hadvance, rfl⟩
  · rintro ⟨reason, c, hadvance, rfl⟩
    exact ⟨(reason, c), liftFault_eq_ok_iff.mpr hadvance, rfl⟩

/-- With accepted settings and a state that has coordinates, only the problem can fail. -/
theorem run_of_admitted (watch : Watch) (hvalid : config.validate = .ok ())
    (hstate : initial ≠ []) : run problem config watch initial =
      (do
        let energy ← problem.energy initial
        let (reason, c) ← (Chain.start config initial energy).advance problem config watch
          config.maxIterations
        return c.report reason).mapError Failure.faulted := by
  unfold run
  rw [hvalid]
  cases initial with
  | nil => exact absurd rfl hstate
  | cons x xs =>
    dsimp only [bind, Except.bind, liftM, monadLift, MonadLift.monadLift]
    cases problem.energy (x :: xs) with
    | error fault => rfl
    | ok energy =>
      dsimp only [Except.mapError]
      cases (Chain.start config (x :: xs) energy).advance problem config watch
        config.maxIterations with
      | error fault => rfl
      | ok out => rfl

/-- A run that returns made as many steps as it says. -/
theorem exists_after_of_run {report : Report α (Result α)}
    (h : run problem config watch initial = .ok report) :
    ∃ energy reason c, problem.energy initial = .ok energy ∧
      after (Chain.step problem config) report.result.iterations
        (Chain.start config initial energy) = .ok c ∧ report = c.report reason := by
  rcases run_eq_ok.mp h with ⟨-, -, energy, henergy, reason, c, hadvance, rfl⟩
  rw [Chain.advance_eq_runUntil] at hadvance
  -- the loop was left after `n` steps, and its chain counted them
  rcases runUntil_eq_ok hadvance with ⟨n, -, hafter⟩
  have hn : c.iterations = n := by
    have hcount := Chain.iterations_after hafter
    simpa [Chain.start] using hcount
  exact ⟨energy, reason, c, henergy, by rw [← hn] at hafter; exact hafter, rfl⟩

/-- A run makes no more moves than it is allowed. -/
theorem iterations_le_of_run {report : Report α (Result α)}
    (h : run problem config watch initial = .ok report) :
    report.result.iterations ≤ config.maxIterations := by
  rcases run_eq_ok.mp h with ⟨-, -, energy, -, reason, c, hadvance, rfl⟩
  rw [Chain.advance_eq_runUntil] at hadvance
  rcases runUntil_eq_ok hadvance with ⟨n, hn, hafter⟩
  have hcount : c.iterations = 0 + n := Chain.iterations_after hafter
  show c.iterations ≤ config.maxIterations
  omega

/-- Checked settings, a state with coordinates and a total problem are all a run needs. -/
theorem run_total (htotal : problem.Total) (hvalid : config.validate = .ok ())
    (hstate : initial ≠ []) : ∃ report, run problem config watch initial = .ok report := by
  rcases htotal.energy initial with ⟨energy, henergy⟩
  have hloop : ∃ out, (Chain.start config initial energy).advance problem config watch
      config.maxIterations = .ok out := by
    rw [Chain.advance_eq_runUntil]
    exact runUntil_total (Chain.step_total htotal) _ _
  rcases hloop with ⟨⟨reason, c⟩, hadvance⟩
  exact ⟨c.report reason,
    run_eq_ok.mpr ⟨hvalid, hstate, energy, henergy, reason, c, hadvance, rfl⟩⟩

end ThermalSearch.Annealing
