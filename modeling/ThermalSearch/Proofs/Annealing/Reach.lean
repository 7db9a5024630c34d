import ThermalSearch.Proofs.Annealing.BestTracking
import ThermalSearch.Proofs.Moves

/-!
# Where an annealing run can get to

A chain only ever enters what is proposed to it. What holds of the initial state and passes from a
state to what is proposed there therefore holds of all states a run visits (`of_visits`) and of its
best state (`of_bestState`), which besides is no worse than the initial one (`best_of_run`).
-/

namespace ThermalSearch.Annealing

variable {α : Type} [Scalar α] {problem : Problem α} {config : Config α} {P : State α → Prop}

/-- The present state and the best one are within `P`. -/
structure Chain.Within (P : State α → Prop) (c : Chain α) : Prop where
  state : P c.state
  best : P c.bestState

/-- Whether the candidate is entered or not, the chain is at a state that was within `P`. -/
theorem Chain.Within.step {c c' : Chain α}
    (hkeeps : problem.Keeps P)
    (h : c.Within P) (hstep : c.step problem config = .ok c') : c'.Within P := by
  have hstate : P c'.visit.state := by
    obtain ⟨candidate, g, energy, accepted, g', hcandidate, -, -, rfl⟩ := step_eq_ok.mp hstep
    -- cooling comes last and does not touch the state
    obtain ⟨temperature, reheats, journal, hcool⟩ :=
      cool_frame config (c.judged accepted candidate energy g')
    rw [hcool]
    show P (c.judged accepted candidate energy g').visit.state
    rw [judged_visit]
    cases accepted with
    | false => exact h.state
    | true => exact hkeeps h.state hcandidate
  have hbest : P c'.best.state := by
    rw [(stepped_of_step hstep).best]
    unfold Visit.better
    split
    · exact hstate
    · exact h.best
  exact ⟨hstate, hbest⟩

/-- After any number of moves the chain is within `P`, and so were all its visits. -/
theorem Chain.within_after {n : Nat} {c c' : Chain α} (hkeeps : problem.Keeps P) (h : c.Within P)
    (hafter : after (Chain.step problem config) n c = .ok c') :
    (∀ v ∈ c.visits problem config n, P v.state) ∧ c'.Within P := by
  refine forall_notes (fun d d' hd hstep => ?_) h hafter
  have hd' : d'.Within P := hd.step hkeeps hstep
  refine ⟨?_, hd'⟩
  intro v hv
  rw [List.mem_singleton.mp hv]
  exact hd'.state

/-! ## Results -/

variable {watch : Watch} {initial : State α} {report : Report α (Result α)}

/-- All that a run visits, and the best of it, is within what its moves keep. -/
theorem of_visits (hrun : run problem config watch initial = .ok report) (hinitial : P initial)
    (hkeeps : problem.Keeps P) :
    ∃ energy, problem.energy initial = .ok energy ∧
      (∀ v ∈ (Chain.start config initial energy).visits problem config report.result.iterations,
        P v.state) ∧ P report.result.bestState := by
  obtain ⟨energy, reason, c, henergy, hafter, rfl⟩ := exists_after_of_run hrun
  have hstart : (Chain.start config initial energy).Within P := ⟨hinitial, hinitial⟩
  obtain ⟨hvisits, hend⟩ := Chain.within_after hkeeps hstart hafter
  exact ⟨energy, henergy, hvisits, hend.best⟩

theorem of_bestState (hrun : run problem config watch initial = .ok report) (hinitial : P initial)
    (hkeeps : problem.Keeps P) :
    P report.result.bestState := by
  obtain ⟨-, -, -, hbest⟩ := of_visits hrun hinitial hkeeps
  exact hbest

/-- The best energy is that of the best state, and no worse than the initial one. -/
theorem best_of_run [FiniteOrder α] (hrun : run problem config watch initial = .ok report) :
    report.result.best.Sound problem ∧ ∃ energy, problem.energy initial = .ok energy ∧
      report.result.best.NoWorse { state := initial, energy := energy } := by
  obtain ⟨energy, reason, c, henergy, hafter, rfl⟩ := exists_after_of_run hrun
  have hstart : (Chain.start config initial energy).visit.Sound problem := henergy
  obtain ⟨seen, htracked⟩ :
      ∃ seen, Chain.Tracked problem (Chain.start config initial energy) seen c :=
    ⟨_, Chain.tracked_after hstart hafter⟩
  have hleast : Least c.best ((Chain.start config initial energy).best :: seen) := by
    rw [htracked.best]
    exact Least.foldl_better _ seen
  refine ⟨?_, energy, henergy, hleast.noWorse _ List.mem_cons_self⟩
  show c.best.Sound problem
  rcases List.mem_cons.mp hleast.mem with hfirst | hlater
  · rw [hfirst]
    exact hstart
  · exact htracked.sound _ hlater

end ThermalSearch.Annealing
