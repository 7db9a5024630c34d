import ThermalSearch.Proofs.Tempering.BestTracking
import ThermalSearch.Proofs.Moves

/-!
# Where a tempering run can get to

A replica enters only what is proposed to it, and exchanges hand on states that some rung held.
What holds of the initial state and passes from a state to what is proposed there therefore holds of
all states entered, held and remembered (`of_visits`), and of the best state of a run
(`of_bestState`), which besides is no worse than the initial one (`best_of_run`).
-/

namespace ThermalSearch.Tempering

variable {α : Type} [Scalar α] {problem : Problem α} {config : Config α} {P : State α → Prop}

/-- The present state of a replica and the best of its rung are within `P`. -/
structure Replica.Within (P : State α → Prop) (r : Replica α) : Prop where
  state : P r.state
  best : P r.bestState

theorem Replica.Within.move {temperature : α} {r r' : Replica α}
    (hkeeps : problem.Keeps P)
    (h : r.Within P) (hmove : r.move problem temperature = .ok r') : r'.Within P := by
  obtain ⟨candidate, g, energy, accepted, g', hcandidate, -, -, rfl⟩ := move_eq_ok.mp hmove
  cases accepted with
  | false => exact ⟨h.state, h.best⟩
  | true =>
    -- what is entered becomes the best of the rung as well if it is better
    have hentered : P candidate := hkeeps h.state hcandidate
    unfold judged enter
    simp only [if_true]
    split
    · exact ⟨hentered, hentered⟩
    · exact ⟨hentered, h.best⟩

/-- Whatever a replica enters in its sweep is within `P`. -/
theorem Replica.within_sweep {temperature : α} {n : Nat} {r r' : Replica α}
    (hkeeps : problem.Keeps P) (h : r.Within P) (hsweep : r.sweep problem temperature n = .ok r') :
    (∀ v ∈ r.entered problem temperature n, P v.state) ∧ r'.Within P := by
  rw [sweep_eq_after] at hsweep
  refine forall_notes (fun s s' hs hmove => ?_) h hsweep
  have hs' : s'.Within P := hs.move hkeeps hmove
  refine ⟨?_, hs'⟩
  intro v hv
  split at hv
  · rw [List.mem_singleton.mp hv]
    exact hs'.state
  · cases hv

theorem localPhase_within {sweeps : Nat} {temperatures : List α} {replicas after : List (Replica α)}
    (hkeeps : problem.Keeps P)
    (h : localPhase problem sweeps temperatures replicas = .ok after)
    (hheld : ∀ r ∈ replicas, r.Within P) :
    (∀ v ∈ enteredInPhase problem sweeps temperatures replicas, P v.state) ∧
      ∀ r ∈ after, r.Within P := by
  induction temperatures generalizing replicas after with
  | nil =>
    rw [localPhase] at h
    · cases h
      exact ⟨by simp [enteredInPhase], hheld⟩
    · simp
  | cons temperature temperatures ih =>
    cases replicas with
    | nil =>
      rw [localPhase] at h
      · cases h
        exact ⟨by simp [enteredInPhase], hheld⟩
      · simp
    | cons r replicas =>
      obtain ⟨r', rest, hr, hrest, rfl⟩ := localPhase_cons_eq_ok.mp h
      obtain ⟨hown, hend⟩ := Replica.within_sweep hkeeps (hheld r List.mem_cons_self) hr
      obtain ⟨hothers, hends⟩ := ih hrest fun t ht => hheld t (List.mem_cons_of_mem r ht)
      constructor
      · intro v hv
        rcases List.mem_append.mp (hv : v ∈ r.entered problem temperature sweeps ++
          enteredInPhase problem sweeps temperatures replicas) with hv | hv
        · exact hown v hv
        · exact hothers v hv
      · intro s hs
        rcases List.mem_cons.mp hs with rfl | hs
        · exact hend
        · exact hends s hs

namespace Ensemble

/-- The states held and remembered on the rungs and the best of all are within `P`. -/
structure Within (P : State α → Prop) (e : Ensemble α) : Prop where
  held : ∀ r ∈ e.replicas, r.Within P
  best : P e.bestState

/-- A round moves, compares and exchanges what is within `P`. -/
theorem Within.round [FiniteOrder α] {e e' : Ensemble α}
    (hkeeps : problem.Keeps P)
    (h : e.Within P) (hround : e.round problem config = .ok e') :
    (∀ v ∈ enteredInPhase problem config.sweepsPerSwap e.temperatures e.replicas, P v.state) ∧
      e'.Within P := by
  obtain ⟨after, hlocal, rfl⟩ := round_eq_ok.mp hround
  obtain ⟨hentered, hmoved⟩ := localPhase_within hkeeps hlocal h.held
  refine ⟨hentered, ?_⟩
  obtain ⟨temperatures, tallies, journal, hframe⟩ :=
    conclude_frame config { e with replicas := after }
  -- the best is merged before states are exchanged
  generalize hmerged : { e with replicas := after }.trackBest = merged at hframe
  have hreplicas : merged.replicas = after := by rw [← hmerged, replicas_trackBest]
  have hbest : merged.best = (after.map Replica.best).foldl Visit.better e.best := by
    rw [← hmerged, best_trackBest]
    rfl
  rw [hframe]
  constructor
  case held =>
    intro r hr
    have hvisits := held_exchangeStates (fun v => P v.state)
      (fun r hr => ⟨(hmoved r (hreplicas ▸ hr)).state, (hmoved r (hreplicas ▸ hr)).best⟩) r hr
    exact ⟨hvisits.1, hvisits.2⟩
  case best =>
    show P merged.best.state
    rw [hbest]
    rcases List.mem_cons.mp (Least.foldl_better e.best (after.map Replica.best)).mem with heq | hv
    · rw [heq]
      exact h.best
    · obtain ⟨r, hr, hrv⟩ := List.mem_map.mp hv
      rw [← hrv]
      exact (hmoved r hr).best

theorem within_start {initial : State α} (hinitial : P initial) (energy : α) :
    (start config initial energy).Within P := by
  refine ⟨?_, hinitial⟩
  intro r hr
  obtain ⟨hvisit, hbest⟩ := startReplicas_visits initial energy config.effectiveReplicas
    (Generator.ofSeed config.seed) r hr
  constructor
  · show P r.visit.state
    rw [hvisit]
    exact hinitial
  · show P r.best.state
    rw [hbest]
    exact hinitial

/-- After any number of rounds all is within `P`, and so was whatever was entered on the way. -/
theorem within_after [FiniteOrder α] {n : Nat} {e e' : Ensemble α} (hkeeps : problem.Keeps P)
    (h : e.Within P) (hafter : after (Ensemble.round problem config) n e = .ok e') :
    (∀ v ∈ e.entered problem config n, P v.state) ∧ e'.Within P :=
  forall_notes (fun _ _ hd hround => hd.round hkeeps hround) h hafter

end Ensemble

/-! ## Results -/

variable {watch : Watch} {initial : State α} {report : Report α (Result α)} [FiniteOrder α]

/-- All that a run enters on any rung, and the best of it, is within what its moves keep. -/
theorem of_visits (hrun : run problem config watch initial = .ok report) (hinitial : P initial)
    (hkeeps : problem.Keeps P) :
    ∃ energy, problem.energy initial = .ok energy ∧
      (∀ v ∈ (Ensemble.start config initial energy).entered problem config report.result.rounds,
        P v.state) ∧ P report.result.bestState := by
  obtain ⟨energy, cancelled, e, henergy, hafter, rfl⟩ := exists_after_of_run hrun
  obtain ⟨hentered, hend⟩ :=
    Ensemble.within_after hkeeps (Ensemble.within_start hinitial energy) hafter
  exact ⟨energy, henergy, hentered, hend.best⟩

theorem of_bestState (hrun : run problem config watch initial = .ok report) (hinitial : P initial)
    (hkeeps : problem.Keeps P) :
    P report.result.bestState := by
  obtain ⟨-, -, -, hbest⟩ := of_visits hrun hinitial hkeeps
  exact hbest

/-- The best visit a result tells of. -/
def Result.best (r : Result α) : Visit α := { state := r.bestState, energy := r.bestEnergy }

/-- The best energy is that of the best state, and no worse than the initial one. -/
theorem best_of_run (hrun : run problem config watch initial = .ok report) :
    report.result.best.Sound problem ∧ ∃ energy, problem.energy initial = .ok energy ∧
      report.result.best.NoWorse { state := initial, energy := energy } := by
  obtain ⟨energy, cancelled, e, henergy, hafter, rfl⟩ := exists_after_of_run hrun
  have htracked := Ensemble.tracked_after henergy hafter
  exact ⟨htracked.sound htracked.best.mem, energy, henergy,
    htracked.best.noWorse _ List.mem_cons_self⟩

end ThermalSearch.Tempering
