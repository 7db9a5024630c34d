import ThermalSearch.Proofs.Annealing.BestTracking
import ThermalSearch.Proofs.Tempering.Accounting
import ThermalSearch.Proofs.Tempering.BestTracking

/-!
# Finite energies are kept

A Metropolis move enters only candidates of finite energy, so a chain that has reached a finite
energy has one from then on, and a chain that has not is still where it began. For annealing this is
said of the history, in which every energy is the one before or finite (`isChain_visits`). For
tempering, exchanges may bring an energy that is not finite back to a rung that had left it, but they
only permute what the rungs hold; so the number of rungs without a finite energy, which no local
phase raises (`stuck_localPhase_le`), is not raised by a round either (`stuck_round_le`).
-/

namespace ThermalSearch

variable {α : Type} [Scalar α] {problem : Problem α}

/-- From one energy to the next it stays as it is, or becomes finite. -/
def Settles (x y : α) : Prop := y = x ∨ Scalar.isFinite y = true

/-- Energies that settle one after the other are finite when the first one is. -/
theorem isFinite_of_isChain {x : α} {xs : List α} (h : (x :: xs).IsChain Settles)
    (hx : Scalar.isFinite x = true) : ∀ y ∈ xs, Scalar.isFinite y = true := by
  induction xs generalizing x with
  | nil =>
    intro y hy
    cases hy
  | cons next xs ih =>
    rcases List.isChain_cons_cons.mp h with ⟨hnext, hrest⟩
    have hfinite : Scalar.isFinite next = true := by
      rcases hnext with rfl | hfinite
      · exact hx
      · exact hfinite
    intro y hy
    rcases List.mem_cons.mp hy with rfl | hy
    · exact hfinite
    · exact ih hrest hfinite y hy

/-- Until some point they are what they were at first, and not finite; from there on they are. -/
theorem exists_settled {x : α} {xs : List α} (h : (x :: xs).IsChain Settles) :
    ∃ m ≤ xs.length, (∀ y ∈ xs.take m, y = x ∧ Scalar.isFinite y = false) ∧
      (∀ y ∈ xs.drop m, Scalar.isFinite y = true) ∧ (Scalar.isFinite x = true → m = 0) := by
  induction xs generalizing x with
  | nil => exact ⟨0, Nat.le_refl 0, by simp, by simp, fun _ => rfl⟩
  | cons next xs ih =>
    rcases List.isChain_cons_cons.mp h with ⟨hnext, hrest⟩
    cases hfinite : Scalar.isFinite next with
    | true =>
      refine ⟨0, Nat.zero_le _, by simp, ?_, fun _ => rfl⟩
      intro y hy
      rcases List.mem_cons.mp hy with rfl | hy
      · exact hfinite
      · exact isFinite_of_isChain hrest hfinite y hy
    | false =>
      have hsame : next = x := hnext.resolve_right (by rw [hfinite]; exact Bool.false_ne_true)
      subst hsame
      rcases ih hrest with ⟨m, hm, hbefore, hafter, -⟩
      refine ⟨m + 1, Nat.succ_le_succ hm, ?_, hafter, ?_⟩
      · intro y hy
        rcases List.mem_cons.mp hy with rfl | hy
        · exact ⟨rfl, hfinite⟩
        · exact hbefore y hy
      · intro htrue
        rw [hfinite] at htrue
        cases htrue

/-! ## Annealing -/

namespace Annealing.Chain

variable {config : Annealing.Config α}

/-- A move stays where it is, or enters a candidate of finite energy. -/
theorem settles_of_step {c c' : Chain α} (h : c.step problem config = .ok c') :
    Settles c.energy c'.energy := by
  rcases step_eq_ok.mp h with ⟨candidate, g, energy, accepted, g', -, -, hdecide, rfl⟩
  rcases cool_frame config (c.judged accepted candidate energy g')
    with ⟨temperature, reheats, journal, hcool⟩
  have hvisit := judged_visit c accepted candidate energy g'
  rw [hcool]
  cases accepted with
  | false => exact Or.inl (congrArg Visit.energy hvisit)
  | true =>
    have henergy : (c.judged true candidate energy g').energy = energy :=
      congrArg Visit.energy hvisit
    refine Or.inr ?_
    show Scalar.isFinite (c.judged true candidate energy g').energy = true
    rw [henergy]
    exact isFinite_of_metropolis hdecide

theorem isChain_visits {n : Nat} {c c' : Chain α} (h : after (step problem config) n c = .ok c') :
    (c.energy :: (c.visits problem config n).map Visit.energy).IsChain Settles := by
  induction n generalizing c with
  | zero => exact List.IsChain.singleton _
  | succ n ih =>
    rcases after_succ_eq_ok.mp h with ⟨d, hd, hrest⟩
    have hvisits : c.visits problem config (n + 1) = d.visit :: d.visits problem config n := by
      unfold visits
      rw [notes, hd]
      rfl
    rw [hvisits]
    exact List.isChain_cons_cons.mpr ⟨settles_of_step hd, ih hrest⟩

end Annealing.Chain

/-! ## Tempering -/

namespace Tempering

variable {config : Tempering.Config α}

/-- How many replicas have no finite energy. -/
def stuck (replicas : List (Replica α)) : Nat :=
  replicas.countP fun r => !Scalar.isFinite r.energy

/-- How many rungs ended round `k` without a finite energy. -/
def stuckIn (traces : List (Array α)) (k : Nat) : Nat :=
  traces.countP fun energies => energies[k]?.any fun x => !Scalar.isFinite x

theorem Replica.isFinite_of_move {temperature : α} {r r' : Replica α}
    (h : r.move problem temperature = .ok r') (hr : Scalar.isFinite r.energy = true) :
    Scalar.isFinite r'.energy = true := by
  rcases move_cases h with ⟨hvisit, -, -⟩ | ⟨-, hfinite, -, -⟩
  · have henergy : r'.energy = r.energy := congrArg Visit.energy hvisit
    rw [henergy]
    exact hr
  · exact hfinite

theorem Replica.isFinite_of_sweep {temperature : α} {n : Nat} {r r' : Replica α}
    (h : r.sweep problem temperature n = .ok r') (hr : Scalar.isFinite r.energy = true) :
    Scalar.isFinite r'.energy = true := by
  rw [sweep_eq_after] at h
  exact after_induction (fun s => Scalar.isFinite s.energy = true)
    (fun _ _ hs hmove => isFinite_of_move hmove hs) hr h

/-- On its own no replica loses a finite energy. -/
theorem stuck_localPhase_le {sweeps : Nat} {temperatures : List α}
    {replicas moved : List (Replica α)}
    (h : localPhase problem sweeps temperatures replicas = .ok moved) :
    stuck moved ≤ stuck replicas := by
  induction temperatures generalizing replicas moved with
  | nil =>
    unfold localPhase at h
    cases h
    exact Nat.le_refl _
  | cons temperature temperatures ih =>
    cases replicas with
    | nil =>
      unfold localPhase at h
      cases h
      exact Nat.le_refl _
    | cons r replicas =>
      rcases localPhase_cons_eq_ok.mp h with ⟨r', rest, hr, hrest, rfl⟩
      have hothers : stuck rest ≤ stuck replicas := ih hrest
      unfold stuck at hothers ⊢
      rw [List.countP_cons, List.countP_cons]
      cases hfinite : Scalar.isFinite r.energy with
      | true =>
        rw [Replica.isFinite_of_sweep hr hfinite]
        exact hothers
      | false =>
        simp only [Bool.not_false, if_true]
        split
        · omega
        · omega

/-- Exchanges pass the energies around. -/
theorem stuck_exchangePhase (round : Nat) (temperatures : List α) (replicas : List (Replica α))
    (tallies : List Tally) (g : Generator) :
    stuck (exchangePhase round temperatures replicas tallies g).replicas = stuck replicas := by
  have hperm := exchangePhase_visits_perm round temperatures replicas tallies g
  have hcount := hperm.countP_eq fun v => !Scalar.isFinite v.energy
  rw [List.countP_map, List.countP_map] at hcount
  exact hcount

namespace Ensemble

variable {e e' : Ensemble α}

theorem stuck_round_le (h : e.round problem config = .ok e') :
    stuck e'.replicas ≤ stuck e.replicas := by
  rcases round_eq_ok.mp h with ⟨moved, hlocal, rfl⟩
  rcases conclude_frame config { e with replicas := moved }
    with ⟨temperatures, tallies, journal, hframe⟩
  rw [hframe, trackBest_eq]
  refine Nat.le_trans (Nat.le_of_eq ?_) (stuck_localPhase_le hlocal)
  exact stuck_exchangePhase _ _ _ _ _

/-- The traces end with the energies that the rungs have now. -/
theorem traces_back_of_round (hshaped : Shaped config e) (h : e.round problem config = .ok e') :
    e'.traces.map Array.back? = e'.replicas.map fun r => some r.energy := by
  rw [round_eq_exchanged] at h
  cases hd : e.exchanged problem config with
  | error fault =>
    rw [hd] at h
    cases h
  | ok d =>
    rw [hd] at h
    have htraces := (exchanged_of_shaped hshaped hd).traces
    rcases Except.ok.inj h with rfl
    dsimp only
    split
    · exact htraces
    · exact htraces

theorem stuckIn_eq_stuck {k : Nat} (hshaped : Shaped config e) (hk : e.rounds = k + 1)
    (htraces : e.traces.map Array.back? = e.replicas.map fun r => some r.energy) :
    stuckIn e.traces k = stuck e.replicas := by
  have hlast : ∀ energies ∈ e.traces, energies[k]? = energies.back? := by
    intro energies henergies
    rw [Array.back?_eq_getElem?, hshaped.size_of_mem henergies, hk]
    rfl
  calc
    stuckIn e.traces k
      = (e.traces.map Array.back?).countP fun x => x.any fun x => !Scalar.isFinite x := by
        rw [List.countP_map]
        refine List.countP_congr fun energies henergies => ?_
        rw [hlast energies henergies]
        rfl
    _ = stuck e.replicas := by
        rw [htraces, List.countP_map]
        rfl

/-- A round adds to the traces. -/
theorem stuckIn_of_round {k : Nat} (hshaped : Shaped config e) (hk : k < e.rounds)
    (h : e.round problem config = .ok e') : stuckIn e'.traces k = stuckIn e.traces k := by
  have hprefix := traces_take_of_round hshaped (Nat.succ_le_of_lt hk) h
  have hcount := congrArg
    (List.countP fun xs : List α => xs[k]?.any fun x => !Scalar.isFinite x) hprefix
  rw [List.countP_map, List.countP_map] at hcount
  have hentry : ∀ energies : Array α, (energies.toList.take (k + 1))[k]? = energies[k]? := by
    intro energies
    rw [List.getElem?_take_of_lt (Nat.lt_succ_self k), Array.getElem?_toList]
  simp only [Function.comp_def, hentry] at hcount
  exact hcount

/-- In the traces so far, no round has more rungs without a finite energy than the one before, and
the last round has as many as there are now. -/
structure Settling (config : Config α) (e : Ensemble α) : Prop where
  shaped : Shaped config e
  antitone : ∀ k, k + 1 < e.rounds → stuckIn e.traces (k + 1) ≤ stuckIn e.traces k
  last : ∀ k, e.rounds = k + 1 → stuckIn e.traces k = stuck e.replicas

theorem Settling.round (h : Settling config e) (hround : e.round problem config = .ok e') :
    Settling config e' := by
  have hshaped : Shaped config e' := h.shaped.round hround
  have hrounds : e'.rounds = e.rounds + 1 := rounds_of_round hround
  have hlast : ∀ k, e'.rounds = k + 1 → stuckIn e'.traces k = stuck e'.replicas := fun k hk =>
    stuckIn_eq_stuck hshaped hk (traces_back_of_round h.shaped hround)
  refine ⟨hshaped, ?_, hlast⟩
  intro k hk
  rw [hrounds] at hk
  have hold : stuckIn e'.traces k = stuckIn e.traces k :=
    stuckIn_of_round h.shaped (Nat.lt_of_succ_lt_succ hk) hround
  rcases Nat.lt_succ_iff_lt_or_eq.mp hk with hearlier | hnow
  · rw [hold, stuckIn_of_round h.shaped hearlier hround]
    exact h.antitone k hearlier
  · rw [hold, h.last k hnow.symm, hlast (k + 1) (by omega)]
    exact stuck_round_le hround

theorem settling_after {initial : State α} {energy : α} {n : Nat}
    (h : after (Ensemble.round problem config) n (start config initial energy) = .ok e) :
    Settling config e := by
  refine after_induction (Settling config) (fun _ _ hsettling hround => hsettling.round hround) ?_ h
  refine ⟨Shaped.start config initial energy, ?_, ?_⟩
  · intro k hk
    exact absurd hk (Nat.not_lt_zero _)
  · intro k hk
    cases hk

end Ensemble

end Tempering

/-! ## Result -/

/-- Finite energies are not lost. In the history of an annealing run they follow on the initial
energy, from some move on and for good. In a tempering run the rungs without a finite energy become
no more from one round to the next and have the initial energy, and there are none of them if that
one is finite; nor is the best energy then infinite or undefined. -/
theorem run_keeps_finite [FiniteOrder α] (problem : Problem α) (watch : Watch)
    (initial : State α) :
    (∀ config : Annealing.Config α,
      (problem.Total → config.validate = .ok () → initial ≠ [] →
        ∃ report, Annealing.run problem config watch initial = .ok report) ∧
      ∀ report, Annealing.run problem config watch initial = .ok report →
        ∃ energy, problem.energy initial = .ok energy ∧
          let r := report.result
          r.energyHistory.size = r.iterations ∧
          ∃ m ≤ r.iterations,
            (∀ x ∈ r.energyHistory.toList.take m, x = energy ∧ Scalar.isFinite x = false) ∧
            (∀ x ∈ r.energyHistory.toList.drop m, Scalar.isFinite x = true) ∧
            (Scalar.isFinite energy = true → m = 0)) ∧
    ∀ config : Tempering.Config α,
      (problem.Total → config.validate = .ok () → initial ≠ [] → config.reserve = .ok () →
        ∃ report, Tempering.run problem config watch initial = .ok report) ∧
      ∀ report, Tempering.run problem config watch initial = .ok report →
        ∃ energy, problem.energy initial = .ok energy ∧
          let r := report.result
          (∀ energies ∈ r.energyTraces, energies.size = r.rounds) ∧
          (∀ k, k + 1 < r.rounds → Tempering.stuckIn r.energyTraces (k + 1) ≤
            Tempering.stuckIn r.energyTraces k) ∧
          (∀ energies ∈ r.energyTraces, ∀ x ∈ energies, Scalar.isFinite x = false → x = energy) ∧
          (Scalar.isFinite energy = true →
            (∀ energies ∈ r.energyTraces, ∀ x ∈ energies, Scalar.isFinite x = true) ∧
            (∀ x ∈ r.replicaEnergies, Scalar.isFinite x = true) ∧
            Scalar.isFinite r.bestEnergy = true) := by
  constructor
  · intro config
    refine ⟨Annealing.run_total, ?_⟩
    intro report h
    rcases Annealing.exists_after_of_run h with ⟨energy, reason, c, henergy, hafter, rfl⟩
    refine ⟨energy, henergy, ?_⟩
    intro r
    have hstart : (Annealing.Chain.start config initial energy).visit.Sound problem := henergy
    have htracked := Annealing.Chain.tracked_after hstart hafter
    have hsize : r.energyHistory.size = r.iterations := htracked.counts.2.1
    have hhistory : r.energyHistory.toList =
        ((Annealing.Chain.start config initial energy).visits problem config r.iterations).map
          Visit.energy := htracked.energyHistory
    rcases exists_settled (Annealing.Chain.isChain_visits hafter) with ⟨m, hm, hsettled⟩
    rw [← hhistory] at hm hsettled
    rw [Array.length_toList, hsize] at hm
    exact ⟨hsize, m, hm, hsettled⟩
  · intro config
    refine ⟨Tempering.run_total, ?_⟩
    intro report h
    rcases Tempering.exists_after_of_run h with ⟨energy, cancelled, e, henergy, hafter, rfl⟩
    refine ⟨energy, henergy, ?_⟩
    intro r
    have hsettling := Tempering.Ensemble.settling_after hafter
    have htracked := Tempering.Ensemble.tracked_after henergy hafter
    refine ⟨?_, hsettling.antitone, ?_, ?_⟩
    · intro energies henergies
      exact hsettling.shaped.size_of_mem henergies
    · intro energies henergies x hx hinfinite
      rcases htracked.traced energies henergies x hx with ⟨v, hv, rfl⟩
      rcases htracked.finite_or_first hv with hfinite | rfl
      · exact absurd (hinfinite.symm.trans hfinite) Bool.false_ne_true
      · rfl
    · intro hfinite
      refine ⟨?_, ?_, htracked.isFinite hfinite htracked.best.mem⟩
      · intro energies henergies x hx
        rcases htracked.traced energies henergies x hx with ⟨v, hv, rfl⟩
        exact htracked.isFinite hfinite hv
      · intro x hx
        rcases List.mem_map.mp hx with ⟨replica, hreplica, rfl⟩
        exact htracked.isFinite hfinite (htracked.held replica hreplica).1

/-- Without a finite energy until one coordinate is left. -/
def fenced : Problem Float where
  energy state := .ok (if state.length = 1 then 9.0 else Scalar.infinity)
  propose := Walk.shorten

theorem fenced_total : fenced.Total where
  energy _ := ⟨_, rfl⟩
  propose _ _ := ⟨_, rfl⟩

/-- One move leads through the fence, and all that is noted is finite. -/
theorem run_keeps_finite_fenced :
    fenced.Total ∧ Annealing.oneMove.validate = .ok () ∧
    (∃ report, Annealing.run fenced Annealing.oneMove .never [3.0, 4.0] = .ok report ∧
      ∃ m ≤ report.result.iterations,
        (∀ x ∈ report.result.energyHistory.toList.take m, x = Scalar.infinity ∧
          Scalar.isFinite x = false) ∧
        ∀ x ∈ report.result.energyHistory.toList.drop m, Scalar.isFinite x = true) ∧
    Tempering.oneRound.validate = .ok () ∧ Tempering.oneRound.reserve = .ok () ∧
    ∃ report, Tempering.run fenced Tempering.oneRound .never [3.0, 4.0] = .ok report ∧
      ∀ energies ∈ report.result.energyTraces, ∀ x ∈ energies, Scalar.isFinite x = false →
        x = Scalar.infinity := by
  have hvalid : Annealing.oneMove.validate = .ok () := by rfl
  have hvalid' : Tempering.oneRound.validate = .ok () := by rfl
  have hroom : Tempering.oneRound.reserve = .ok () := by rfl
  have hstart : fenced.energy [3.0, 4.0] = .ok Scalar.infinity := by rfl
  rcases run_keeps_finite fenced .never [3.0, 4.0] with ⟨hanneal, htemper⟩
  rcases (hanneal Annealing.oneMove).1 fenced_total hvalid (List.cons_ne_nil _ _)
    with ⟨annealed, hannealed⟩
  rcases (htemper Tempering.oneRound).1 fenced_total hvalid' (List.cons_ne_nil _ _) hroom
    with ⟨tempered, htempered⟩
  rcases (hanneal Annealing.oneMove).2 annealed hannealed
    with ⟨energy, henergy, -, m, hm, hbefore, hafter, -⟩
  rcases (htemper Tempering.oneRound).2 tempered htempered with ⟨energy', henergy', -, -, hstuck, -⟩
  cases hstart.symm.trans henergy
  cases hstart.symm.trans henergy'
  exact ⟨fenced_total, hvalid, ⟨annealed, hannealed, m, hm, hbefore, hafter⟩, hvalid', hroom,
    tempered, htempered, hstuck⟩

end ThermalSearch
