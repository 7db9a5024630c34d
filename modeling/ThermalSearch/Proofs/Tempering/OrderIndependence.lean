import Mathlib.Algebra.Ring.Nat
import Mathlib.Logic.Relation
import Mathlib.Order.WellFounded
import ThermalSearch.Proofs.Tempering.Rounds

/-!
# Replicas that move in any order

Between two rounds of exchanges the replicas may move at the same time. Here such a local phase is
a relation of steps: in each step some replica that has moves left makes one of them, at the
temperature of its rung. `Phase.finish` is what carries the argument: from any point of any
execution it lets the replicas finish one after the other, and no step changes where that leads.

* `Phase.Execution.outcome`: wherever no step is possible, the sequential phase is reproduced;
* `Ensemble.concurrent_iff_advance`: the same for rounds in a row;
* `run_order_independent`: the same for runs, which therefore need not know about the order.
-/

namespace ThermalSearch.Tempering

open Relation

variable {α : Type}

/-- An ensemble in the middle of a local phase, with the moves its replicas have left. -/
structure Phase (α : Type) where
  ensemble : Ensemble α
  left : List Nat

namespace Phase

/-- Before the first move. Every replica that has a rung has all its moves left. -/
def start (sweeps : Nat) (e : Ensemble α) : Phase α where
  ensemble := e
  left := List.zipWith (fun _ _ => sweeps) e.temperatures e.replicas

/-- All moves are made. -/
def Over (p : Phase α) : Prop := ∀ n ∈ p.left, n = 0

variable [Scalar α]

/-- Some replica makes one move. It sees its own state and generator and the temperature of its
rung, and nothing else. -/
inductive Step (problem : Problem α) : Phase α → Phase α → Prop where
  | move {p : Phase α} {i n : Nat} {temperature : α} {r r' : Replica α}
      (rung : p.ensemble.temperatures[i]? = some temperature)
      (replica : p.ensemble.replicas[i]? = some r)
      (budget : p.left[i]? = some (n + 1))
      (moved : r.move problem temperature = .ok r') :
      Step problem p
        { ensemble := { p.ensemble with replicas := p.ensemble.replicas.set i r' }
          left := p.left.set i n }

/-- A local phase from its start to a point where no replica can move: each has made its moves,
or faults in the next one. -/
structure Execution (problem : Problem α) (sweeps : Nat) (e : Ensemble α) (p : Phase α) :
    Prop where
  steps : ReflTransGen (Step problem) (start sweeps e) p
  final : ∀ q, ¬ Step problem p q

/-! ## One replica after the other -/

/-- The replicas make the moves they have left, each of them all of its own before the next. -/
def finish (problem : Problem α) :
    List α → List (Replica α) → List Nat → Except Fault (List (Replica α))
  | temperature :: temperatures, r :: replicas, n :: left => do
    let r ← r.sweep problem temperature n
    let replicas ← finish problem temperatures replicas left
    return r :: replicas
  | _, replicas, _ => .ok replicas

variable {problem : Problem α} {temperatures : List α} {replicas : List (Replica α)}
  {left : List Nat}

/-- Nothing was done yet: this is the local phase. -/
theorem finish_start (sweeps : Nat) (temperatures : List α) (replicas : List (Replica α)) :
    finish problem temperatures replicas
        (List.zipWith (fun _ _ => sweeps) temperatures replicas) =
      localPhase problem sweeps temperatures replicas := by
  induction temperatures generalizing replicas with
  | nil => simp [finish, localPhase]
  | cons temperature temperatures ih =>
    cases replicas with
    | nil => simp [finish, localPhase]
    | cons r replicas =>
      rw [List.zipWith_cons_cons, finish, localPhase, ih]

/-- Everything is done. -/
theorem finish_over (h : ∀ n ∈ left, n = 0) :
    finish problem temperatures replicas left = .ok replicas := by
  fun_induction finish problem temperatures replicas left with
  | case1 temperature temperatures r replicas n left ih =>
    have hn : n = 0 := h n List.mem_cons_self
    have hrest := ih (fun m hm => h m (List.mem_cons_of_mem n hm))
    rw [hn, hrest]
    rfl
  | case2 => rfl

/-- A move made ahead of its turn leads to the same end. -/
theorem finish_set {i n : Nat} {temperature : α} {r r' : Replica α}
    (rung : temperatures[i]? = some temperature) (replica : replicas[i]? = some r)
    (budget : left[i]? = some (n + 1)) (moved : r.move problem temperature = .ok r') :
    finish problem temperatures (replicas.set i r') (left.set i n) =
      finish problem temperatures replicas left := by
  fun_induction finish problem temperatures replicas left generalizing i with
  | case1 temperature₁ temperatures r₁ replicas n₁ left ih =>
    cases i with
    | zero =>
      cases rung
      cases replica
      cases budget
      have hsweep : r.sweep problem temperature (n + 1) = r'.sweep problem temperature n := by
        rw [Replica.sweep, moved]
        rfl
      rw [hsweep]
      rfl
    | succ i =>
      have hrest := ih rung replica budget
      rw [List.set_cons_succ, List.set_cons_succ, finish, hrest]
  | case2 temperatures replicas left hshort =>
    -- a replica that moves has a rung, and moves left
    cases temperatures with
    | nil => cases rung
    | cons t ts =>
      cases replicas with
      | nil => cases replica
      | cons s ss =>
        cases left with
        | nil => cases budget
        | cons m ms => exact absurd rfl (hshort t ts s ss m ms rfl rfl)

/-- If every move that is left faults, one cannot finish unless there is none. -/
theorem over_of_finish {after : List (Replica α)}
    (hstuck : ∀ (i n : Nat) (temperature : α) (r : Replica α),
      temperatures[i]? = some temperature → replicas[i]? = some r → left[i]? = some (n + 1) →
      ∃ fault, r.move problem temperature = .error fault)
    (hrungs : left.length ≤ temperatures.length) (hreplicas : left.length ≤ replicas.length)
    (h : finish problem temperatures replicas left = .ok after) : ∀ n ∈ left, n = 0 := by
  fun_induction finish problem temperatures replicas left generalizing after with
  | case1 temperature temperatures r replicas n left ih =>
    rcases bind_eq_ok_iff.mp h with ⟨r', hsweep, h⟩
    rcases bind_eq_ok_iff.mp h with ⟨rest, hrest, -⟩
    have hhere : n = 0 := by
      cases n with
      | zero => rfl
      | succ n =>
        rcases hstuck 0 n temperature r rfl rfl rfl with ⟨fault, hfault⟩
        rw [Replica.sweep, hfault] at hsweep
        cases hsweep
    have hthere : ∀ m ∈ left, m = 0 :=
      ih (fun i => hstuck (i + 1)) (Nat.le_of_succ_le_succ hrungs)
        (Nat.le_of_succ_le_succ hreplicas) hrest
    intro m hm
    rcases List.mem_cons.mp hm with rfl | hm
    · exact hhere
    · exact hthere m hm
  | case2 temperatures replicas left hshort =>
    cases left with
    | nil => simp
    | cons m ms =>
      cases temperatures with
      | nil => cases hrungs
      | cons t ts =>
        cases replicas with
        | nil => cases hreplicas
        | cons s ss => exact absurd rfl (hshort t ts s ss m ms rfl rfl)

/-! ## Executions -/

variable {e : Ensemble α} {sweeps : Nat} {p q : Phase α}

/-- What holds all through a local phase: only replicas change, and whatever happened, letting
them finish in turn still gives what the sequential phase gives. -/
structure Reached (problem : Problem α) (sweeps : Nat) (e : Ensemble α) (p : Phase α) : Prop where
  frame : p.ensemble = { e with replicas := p.ensemble.replicas }
  rungs : p.left.length ≤ p.ensemble.temperatures.length
  replicas : p.left.length ≤ p.ensemble.replicas.length
  finish : finish problem p.ensemble.temperatures p.ensemble.replicas p.left =
    localPhase problem sweeps e.temperatures e.replicas

theorem reached_start (problem : Problem α) (sweeps : Nat) (e : Ensemble α) :
    Reached problem sweeps e (start sweeps e) where
  frame := rfl
  rungs := by
    simp only [start, List.length_zipWith]
    exact Nat.min_le_left _ _
  replicas := by
    simp only [start, List.length_zipWith]
    exact Nat.min_le_right _ _
  finish := finish_start sweeps e.temperatures e.replicas

theorem Reached.step (h : Reached problem sweeps e p) (hstep : Step problem p q) :
    Reached problem sweeps e q := by
  cases hstep with
  | @move i n temperature r r' rung replica budget moved =>
    constructor
    case frame =>
      exact congrArg
        (fun e' : Ensemble α => { e' with replicas := p.ensemble.replicas.set i r' }) h.frame
    case rungs =>
      rw [List.length_set]
      exact h.rungs
    case replicas =>
      rw [List.length_set, List.length_set]
      exact h.replicas
    case finish =>
      rw [← h.finish]
      exact finish_set rung replica budget moved

theorem Reached.steps (h : ReflTransGen (Step problem) (start sweeps e) p) :
    Reached problem sweeps e p := by
  induction h with
  | refl => exact reached_start problem sweeps e
  | tail _ hstep ih => exact ih.step hstep

/-- The end of an execution does not depend on the order of its moves. If the sequential phase
succeeds it is the outcome, and nothing but the replicas changed; if it faults, some replica is
stuck in front of a move that faults. -/
theorem Execution.outcome (h : Execution problem sweeps e p) :
    match localPhase problem sweeps e.temperatures e.replicas with
    | .ok replicas => p.Over ∧ p.ensemble = { e with replicas := replicas }
    | .error _ => ¬ p.Over := by
  have hreached := Reached.steps h.steps
  split
  next replicas hlocal =>
    have hover : p.Over := by
      -- whoever had moves left would make one, or be stuck before a fault
      apply over_of_finish _ hreached.rungs hreached.replicas (hreached.finish.trans hlocal)
      intro i n temperature r rung replica budget
      cases hmove : r.move problem temperature with
      | ok r' => exact absurd (Step.move rung replica budget hmove) (h.final _)
      | error fault => exact ⟨fault, rfl⟩
    have hsame : Except.ok (ε := Fault) p.ensemble.replicas = .ok replicas := by
      rw [← hlocal, ← hreached.finish, finish_over hover]
    refine ⟨hover, ?_⟩
    rw [hreached.frame, Except.ok.inj hsame]
  next fault hlocal =>
    intro hover
    have hfinish : finish problem p.ensemble.temperatures p.ensemble.replicas p.left =
        .ok p.ensemble.replicas := finish_over hover
    rw [hreached.finish, hlocal] at hfinish
    cases hfinish

/-- Every step spends one of the moves that are left. -/
theorem sum_set_lt {left : List Nat} {i n : Nat} (h : left[i]? = some (n + 1)) :
    (left.set i n).sum < left.sum := by
  induction left generalizing i with
  | nil => cases h
  | cons m left ih =>
    cases i with
    | zero =>
      cases h
      simp
    | succ i =>
      have hrest := ih h
      simpa using hrest

/-- No execution goes on for ever. -/
theorem step_wellFounded (problem : Problem α) :
    WellFounded fun q p : Phase α => Step problem p q := by
  refine Subrelation.wf ?_ (InvImage.wf (fun p : Phase α => p.left.sum) Nat.lt_wfRel.wf)
  intro q p hstep
  cases hstep with
  | move _ _ budget _ => exact sum_set_lt budget

/-- Any point of a phase leads to one where no replica can move. -/
theorem exists_final (problem : Problem α) (p : Phase α) :
    ∃ q, ReflTransGen (Step problem) p q ∧ ∀ next, ¬ Step problem q next := by
  induction p using (step_wellFounded problem).induction with
  | _ p ih =>
    by_cases hnext : ∃ q, Step problem p q
    · rcases hnext with ⟨q, hstep⟩
      rcases ih q hstep with ⟨final, hsteps, hfinal⟩
      exact ⟨final, ReflTransGen.head hstep hsteps, hfinal⟩
    · exact ⟨p, ReflTransGen.refl, fun q hstep => hnext ⟨q, hstep⟩⟩

theorem exists_execution (problem : Problem α) (sweeps : Nat) (e : Ensemble α) :
    ∃ p, Execution problem sweeps e p := by
  rcases exists_final problem (start sweeps e) with ⟨p, hsteps, hfinal⟩
  exact ⟨p, hsteps, hfinal⟩

end Phase

/-! ## Runs -/

variable [Scalar α] {problem : Problem α} {config : Config α} {watch : Watch}
  {initial : State α}

namespace Ensemble

/-- Rounds until they are over or the watch says to stop, in each of which the replicas move in
any order. A round ends when all moves are made. -/
inductive Concurrent (problem : Problem α) (config : Config α) (watch : Watch) :
    Nat → Ensemble α → Bool → Ensemble α → Prop where
  | spent (e : Ensemble α) : Concurrent problem config watch 0 e false e
  | cancelled {remaining : Nat} {e : Ensemble α} (hstop : watch e.poll = true) :
      Concurrent problem config watch (remaining + 1) e true e
  | round {remaining : Nat} {e e' : Ensemble α} {p : Phase α} {cancelled : Bool}
      (hgo : watch e.poll = false) (hphase : Phase.Execution problem config.sweepsPerSwap e p)
      (hover : p.Over)
      (hrest : Concurrent problem config watch remaining (p.ensemble.conclude config)
        cancelled e') :
      Concurrent problem config watch (remaining + 1) e cancelled e'

theorem concurrent_iff_advance {remaining : Nat} {e e' : Ensemble α} {cancelled : Bool} :
    Concurrent problem config watch remaining e cancelled e' ↔
      e.advance problem config watch remaining = .ok (cancelled, e') := by
  constructor
  · intro h
    induction h with
    | spent _ => rfl
    | cancelled hstop => rw [advance, if_pos hstop]
    | @round remaining e e' p cancelled hgo hphase hover _ ih =>
      have hout := hphase.outcome
      split at hout
      next replicas hlocal =>
        have hround : e.round problem config = .ok (p.ensemble.conclude config) := by
          rw [hout.2]
          exact round_eq_ok.mpr ⟨replicas, hlocal, rfl⟩
        rw [advance, hgo, if_neg Bool.false_ne_true]
        exact bind_eq_ok_iff.mpr ⟨_, hround, ih⟩
      next => exact absurd hover hout
  · -- any execution that can go no further will do for a round
    intro h
    induction remaining generalizing e with
    | zero =>
      cases h
      exact Concurrent.spent _
    | succ remaining ih =>
      cases hwatch : watch e.poll with
      | true =>
        rw [advance, if_pos hwatch] at h
        cases h
        exact Concurrent.cancelled hwatch
      | false =>
        rw [advance, hwatch, if_neg Bool.false_ne_true] at h
        rcases bind_eq_ok_iff.mp h with ⟨e₁, hround, hrest⟩
        rcases round_eq_ok.mp hround with ⟨replicas, hlocal, rfl⟩
        rcases Phase.exists_execution problem config.sweepsPerSwap e with ⟨p, hphase⟩
        have hout := hphase.outcome
        rw [hlocal] at hout
        refine Concurrent.round hwatch hphase hout.1 (ih ?_)
        rw [hout.2]
        exact hrest

end Ensemble

/-- What a run may return whose replicas move in any order in every round. -/
def ConcurrentRun (problem : Problem α) (config : Config α) (watch : Watch) (initial : State α)
    (report : Report α (Result α)) : Prop :=
  config.validate = .ok () ∧ initial ≠ [] ∧ config.reserve = .ok () ∧
    ∃ energy, problem.energy initial = .ok energy ∧
      ∃ cancelled e, Ensemble.Concurrent problem config watch config.totalSwaps
        (Ensemble.start config initial energy) cancelled e ∧ report = e.report cancelled

theorem concurrentRun_iff_run {report : Report α (Result α)} :
    ConcurrentRun problem config watch initial report ↔
      run problem config watch initial = .ok report := by
  rw [run_eq_ok]
  simp only [ConcurrentRun, Ensemble.concurrent_iff_advance]

/-- Whether the replicas are said to move at the same time is seen in the journal only. -/
theorem run_parallel (parallel : Bool) {report : Report α (Result α)}
    (h : run problem config watch initial = .ok report) :
    ∃ report', run problem { config with parallel := parallel } watch initial = .ok report' ∧
      report'.result = report.result ∧ report'.evaluations = report.evaluations := by
  rcases run_eq_ok.mp h with ⟨hvalid, hstate, hroom, energy, henergy, cancelled, e, hadvance, rfl⟩
  have hviews := Ensemble.advance_start_settings problem config config.totalSwaps parallel initial
    energy watch config.totalSwaps
  rcases exists_ok_of_map_eq hviews.symm hadvance with ⟨⟨cancelled', e'⟩, hadvance', hview⟩
  have hsame : e'.unreported = e.unreported := (congrArg Prod.snd hview).symm
  cases congrArg Prod.fst hview
  refine ⟨e'.report cancelled, ?_, ?_, Ensemble.evaluations_of_unreported hsame⟩
  · exact run_eq_ok.mpr
      ⟨hvalid, hstate, hroom, energy, henergy, cancelled, e', hadvance', rfl⟩
  · exact Ensemble.result_of_unreported hsame cancelled cancelled

/-! ## Results -/

/-- In whatever order the replicas move, a local phase ends, changes the replicas as the
sequential phase does, and changes nothing else; and so a run whose replicas move at the same time
returns the result of the run whose replicas take turns. -/
theorem run_order_independent (problem : Problem α) :
    (WellFounded fun q p : Phase α => Phase.Step problem p q) ∧
    (∀ sweeps (e : Ensemble α) p, Phase.Execution problem sweeps e p →
      match localPhase problem sweeps e.temperatures e.replicas with
      | .ok replicas => p.Over ∧ p.ensemble = { e with replicas := replicas }
      | .error _ => ¬ p.Over) ∧
    (problem.Total → ∀ sweeps temperatures replicas,
      ∃ after, localPhase problem sweeps temperatures replicas = .ok after) ∧
    ∀ (config : Config α) (watch : Watch) (initial : State α),
      (∀ r, (∃ report, ConcurrentRun problem { config with parallel := true } watch initial report ∧
          report.result = r) ↔
        ∃ report, run problem { config with parallel := false } watch initial = .ok report ∧
          report.result = r) ∧
      (∀ r, (∃ report, run problem { config with parallel := true } watch initial = .ok report ∧
          report.result = r) ↔
        ∃ report, run problem { config with parallel := false } watch initial = .ok report ∧
          report.result = r) ∧
      (problem.Total → config.validate = .ok () → initial ≠ [] → config.reserve = .ok () →
        ∃ report, ConcurrentRun problem { config with parallel := true } watch initial report) := by
  refine ⟨Phase.step_wellFounded problem, fun sweeps e p h => h.outcome, localPhase_total, ?_⟩
  intro config watch initial
  have hflag : ∀ r,
      (∃ report, run problem { config with parallel := true } watch initial = .ok report ∧
        report.result = r) ↔
      ∃ report, run problem { config with parallel := false } watch initial = .ok report ∧
        report.result = r := by
    intro r
    constructor
    · rintro ⟨report, hrun, rfl⟩
      rcases run_parallel false hrun with ⟨report', hrun', hresult, -⟩
      exact ⟨report', hrun', hresult⟩
    · rintro ⟨report, hrun, rfl⟩
      rcases run_parallel true hrun with ⟨report', hrun', hresult, -⟩
      exact ⟨report', hrun', hresult⟩
  refine ⟨?_, hflag, ?_⟩
  · simp only [concurrentRun_iff_run]
    exact hflag
  · intro htotal hvalid hstate hroom
    simp only [concurrentRun_iff_run]
    exact run_total htotal hvalid hstate hroom

/-- The hotter replica may go first. -/
theorem run_order_independent_slide :
    let e := Ensemble.start oneRound [3.0, 4.0] 25.0
    ∃ hotFirst p, Phase.Step Walk.slide (Phase.start 1 e) hotFirst ∧ hotFirst.left = [1, 0] ∧
      ReflTransGen (Phase.Step Walk.slide) hotFirst p ∧ Phase.Execution Walk.slide 1 e p ∧
      localPhase Walk.slide 1 e.temperatures e.replicas = .ok p.ensemble.replicas ∧
      p.ensemble.generator = e.generator ∧
      ∃ report, ConcurrentRun Walk.slide { oneRound with parallel := true } .never [3.0, 4.0]
        report ∧ report.result.bestEnergy = 9.0 := by
  intro e
  have hpromise := run_order_independent Walk.slide
  -- the hotter replica moves
  have hmove : ∃ moved, (e.replicas.getLast (by decide)).move Walk.slide 100.0 = .ok moved :=
    Replica.move_total Walk.slide_total _
  rcases hmove with ⟨moved, hmoved⟩
  have hfirst : Phase.Step Walk.slide (Phase.start 1 e)
      { ensemble := { e with replicas := e.replicas.set 1 moved }, left := [1, 0] } :=
    Phase.Step.move (i := 1) rfl rfl rfl hmoved
  rcases Phase.exists_final Walk.slide _ with ⟨p, hrest, hfinal⟩
  have hphase : Phase.Execution Walk.slide 1 e p := ⟨ReflTransGen.head hfirst hrest, hfinal⟩
  rcases hpromise.2.2.1 Walk.slide_total 1 e.temperatures e.replicas with ⟨replicas, hlocal⟩
  have hout := hpromise.2.1 1 e p hphase
  rw [hlocal] at hout
  rcases hout with ⟨-, hensemble⟩
  refine ⟨_, p, hfirst, rfl, hrest, hphase, ?_, ?_, ?_⟩
  · rw [hlocal, hensemble]
  · rw [hensemble]
  · -- the whole run is the one whose replicas take turns
    have hevaluated : (run Walk.slide { oneRound with parallel := false } .never
        [3.0, 4.0]).toOption.map (fun r => r.result.bestEnergy) = some 9.0 := by rfl
    rcases (hpromise.2.2.2 oneRound .never [3.0, 4.0]).2.2 Walk.slide_total rfl
      (List.cons_ne_nil _ _) rfl with ⟨report, hreport⟩
    rcases ((hpromise.2.2.2 oneRound .never [3.0, 4.0]).1 report.result).mp ⟨report, hreport, rfl⟩
      with ⟨report', hrun, hresult⟩
    rw [hrun] at hevaluated
    refine ⟨report, hreport, ?_⟩
    rw [← hresult]
    exact Option.some.inj hevaluated

end ThermalSearch.Tempering
