import ThermalSearch.Proofs.Annealing.BestTracking

/-!
# Annealing runs that end early

An annealing run can be stopped at any time, and its result is that of a run whose budget was spent
by then (`run_anytime_moves`): the watch is asked before a move, when all of the moves before it are
done and recorded. A run with a smaller budget is the beginning of one with a larger budget, for
no move looks at the budget. That the two announce their budgets differently is seen in the
journal only, and nothing depends on what was reported (`Chain.advance_unreported`).
-/

namespace ThermalSearch.Annealing

variable {α : Type} [Scalar α] {problem : Problem α} {config : Config α}

/-- What a run tells the watch at poll number `k`: it has made `k` moves, each of which evaluated
an energy, and before them it evaluated the initial one. -/
def pollNumber (k : Nat) : Poll := { index := k, evaluations := k + 1 }

namespace Chain

/-! ## Polls -/

theorem poll_after {initial : State α} {energy : α} {n : Nat} {c : Chain α}
    (h : after (step problem config) n (start config initial energy) = .ok c) :
    c.poll = pollNumber n := by
  have hiterations : c.iterations = 0 + n := iterations_after h
  have hevaluations : c.evaluations = 1 + n :=
    count_after (fun hstep => (stepped_of_step hstep).evaluations) h
  rw [poll, hiterations, hevaluations, Nat.zero_add, Nat.add_comm]
  rfl

/-! ## Reports

What a chain reported has no influence on what it does. -/

/-- The chain, had it reported nothing. -/
def unreported (c : Chain α) : Chain α := { c with journal := #[] }

theorem judged_unreported (c : Chain α) (accepted : Bool) (candidate : State α) (energy : α)
    (g : Generator) : c.unreported.judged accepted candidate energy g =
      (c.judged accepted candidate energy g).unreported := by
  unfold judged settle trackBest
  cases accepted with
  | false =>
    simp only [unreported, Bool.false_eq_true, if_false]
    split <;> rfl
  | true =>
    simp only [unreported, if_true]
    split <;> rfl

theorem cool_unreported (config : Config α) (c : Chain α) :
    (c.unreported.cool config).unreported = (c.cool config).unreported := by
  have hiterations : c.unreported.iterations = c.iterations := rfl
  unfold cool
  rw [hiterations]
  split
  · rfl
  · rfl

theorem step_unreported (c : Chain α) :
    (c.unreported.step problem config).map unreported =
      (c.step problem config).map unreported := by
  have htrial : problem.trial c.unreported.state c.unreported.energy c.unreported.temperature
      c.unreported.generator = problem.trial c.state c.energy c.temperature c.generator := rfl
  rw [step_eq_map_trial, step_eq_map_trial, htrial]
  cases problem.trial c.state c.energy c.temperature c.generator with
  | error fault => rfl
  | ok t =>
    have hjudged := judged_unreported c t.accepted t.candidate t.energy t.generator
    have hcooled := cool_unreported config (c.judged t.accepted t.candidate t.energy t.generator)
    rw [← hjudged] at hcooled
    exact congrArg Except.ok hcooled

theorem advance_unreported (watch : Watch) (budget : Nat) {c c' : Chain α}
    (h : c.unreported = c'.unreported) :
    (c.advance problem config watch budget).map (Prod.map id unreported) =
      (c'.advance problem config watch budget).map (Prod.map id unreported) := by
  rw [advance_eq_runUntil, advance_eq_runUntil]
  refine runUntil_congr ?_ ?_ budget h
  · intro s s' hview
    have hexit : exit? config watch s.unreported = exit? config watch s'.unreported := by
      rw [hview]
    exact hexit
  · intro s s' hview
    rw [← step_unreported s, hview, step_unreported]

/-- Chains that differ in their reports at most have the same result. -/
theorem result_of_unreported {c c' : Chain α} (h : c.unreported = c'.unreported)
    (reason reason' : StopReason) :
    c.result reason = { c'.result reason' with cancelled := reason == .cancelled } := by
  have hresult : c.unreported.result reason = c'.unreported.result reason := by rw [h]
  exact hresult

/-! ## Budgets

No move looks at the budget, so the loop of one run is the loop of the other on a chain that
announced something else. -/

variable {initial : State α} {energy : α} {watch : Watch}

theorem advance_start_budget (config : Config α) (initial : State α) (energy : α) (watch : Watch)
    (k : Nat) :
    ((start { config with maxIterations := k } initial energy).advance problem
        { config with maxIterations := k } watch k).map (Prod.map id unreported) =
      ((start config initial energy).advance problem config watch k).map
        (Prod.map id unreported) := by
  have hloop : advance problem { config with maxIterations := k } watch k =
      advance problem config watch k := by
    funext c
    rw [advance_eq_runUntil, advance_eq_runUntil]
    rfl
  rw [hloop]
  exact advance_unreported watch k rfl

/-- A run that is stopped at poll `k` makes the moves of a run with a budget of `k`. -/
theorem advance_cut {k : Nat} (hk : k < config.maxIterations)
    (hstop : watch.FirstStop pollNumber k) :
    ((start config initial energy).advance problem config watch config.maxIterations).map
        Prod.snd =
      ((start config initial energy).advance problem config .never k).map Prod.snd := by
  rw [advance_eq_runUntil, advance_eq_runUntil]
  apply runUntil_cut hk
  · intro j hj c hc
    have hgo : watch c.poll = false := by
      rw [poll_after hc]
      exact hstop.before j hj
    unfold exit?
    rw [hgo]
    rfl
  · intro c hc
    have hhere : watch c.poll = true := by
      rw [poll_after hc]
      exact hstop.here
    unfold exit?
    rw [hhere]
    split
    · exact ⟨.frozen, rfl⟩
    · exact ⟨.cancelled, rfl⟩

theorem exit?_eq_none_iff {c : Chain α} : exit? config watch c = none ↔
    ¬ c.temperature < config.finalTemperature ∧ watch c.poll = false := by
  unfold exit?
  split
  next hcold => simp [hcold]
  next hwarm => simp [hwarm]

theorem exit?_eq_cancelled_iff {c : Chain α} : exit? config watch c = some .cancelled ↔
    ¬ c.temperature < config.finalTemperature ∧ watch c.poll = true := by
  unfold exit?
  split
  next hcold => simp [hcold]
  next hwarm => simp [hwarm]

/-- A run is stopped by the watch if it gets as far as the watch's first yes. -/
theorem cancelled_iff {k budget : Nat} (hstop : watch.FirstStop pollNumber k)
    {reason : StopReason} {c : Chain α}
    (h : (start config initial energy).advance problem config watch budget = .ok (reason, c)) :
    reason = .cancelled ↔ k < budget ∧ ∀ j ≤ k, ∀ c',
      after (step problem config) j (start config initial energy) = .ok c' →
        ¬ c'.temperature < config.finalTemperature := by
  rw [advance_eq_runUntil] at h
  obtain ⟨n, hn, hafter, hbefore, hend⟩ := exit_of_runUntil h
  have hnk : n ≤ k := by
    refine le_of_exit hafter hbefore fun u hu hnone => ?_
    have hno : watch u.poll = false := (exit?_eq_none_iff.mp hnone).2
    rw [poll_after hu, hstop.here] at hno
    cases hno
  constructor
  · rintro rfl
    rcases hend with ⟨-, hspent⟩ | ⟨hlt, hexit⟩
    · cases hspent
    · obtain ⟨hwarm, hyes⟩ := exit?_eq_cancelled_iff.mp hexit
      have hn : n = k := by
        by_contra hearly
        rw [poll_after hafter, hstop.before n (by omega)] at hyes
        cases hyes
      subst hn
      refine ⟨hlt, ?_⟩
      intro j hj c' hc'
      rcases Nat.lt_or_eq_of_le hj with hj | rfl
      · exact (exit?_eq_none_iff.mp (hbefore j hj c' hc')).1
      · cases hafter.symm.trans hc'
        exact hwarm
  · rintro ⟨hk, hwarm⟩
    rcases hend with ⟨hspent, -⟩ | ⟨-, hexit⟩
    · omega
    · unfold exit? at hexit
      rw [if_neg (hwarm n hnk c hafter)] at hexit
      split at hexit
      · cases hexit
        rfl
      · cases hexit

/-! ## Histories -/

theorem histories_prefix_of_after {n : Nat} {c c' : Chain α}
    (h : after (step problem config) n c = .ok c') :
    c.energyHistory.toList <+: c'.energyHistory.toList ∧
      c.temperatureHistory.toList <+: c'.temperatureHistory.toList := by
  refine after_induction (fun d => c.energyHistory.toList <+: d.energyHistory.toList ∧
    c.temperatureHistory.toList <+: d.temperatureHistory.toList) ?_ ⟨List.prefix_rfl,
      List.prefix_rfl⟩ h
  rintro d d' ⟨henergies, htemperatures⟩ hstep
  have hstepped : Stepped problem d d' := stepped_of_step hstep
  rw [hstepped.energyHistory, hstepped.temperatureHistory, Array.toList_push, Array.toList_push]
  exact ⟨henergies.trans (List.prefix_append _ _), htemperatures.trans (List.prefix_append _ _)⟩

end Chain

/-! ## Results -/

variable {initial : State α} {energy : α}

/-- The chain that a run ends with. -/
theorem exists_chain (htotal : problem.Total) (hvalid : config.validate = .ok ())
    (hstate : initial ≠ []) (henergy : problem.energy initial = .ok energy) (watch : Watch) :
    ∃ reason c, (Chain.start config initial energy).advance problem config watch
        config.maxIterations = .ok (reason, c) ∧
      run problem config watch initial = .ok (c.report reason) := by
  obtain ⟨report, hrun⟩ : ∃ report, run problem config watch initial = .ok report :=
    run_total htotal hvalid hstate
  obtain ⟨-, -, energy', henergy', reason, c, hadvance, rfl⟩ := run_eq_ok.mp hrun
  cases henergy.symm.trans henergy'
  exact ⟨reason, c, hadvance, hrun⟩

/-- The run with a smaller budget, and a chain on the way of the run that is where it ends. -/
theorem exists_short_chain (htotal : problem.Total) (hvalid : config.validate = .ok ())
    (hstate : initial ≠ []) (henergy : problem.energy initial = .ok energy) (k : Nat) :
    ∃ reason, ∃ c d : Chain α, run problem { config with maxIterations := k } .never initial =
        .ok (c.report reason) ∧
      (Chain.start config initial energy).advance problem config .never k = .ok (reason, d) ∧
      c.unreported = d.unreported := by
  have hvalid' : { config with maxIterations := k }.validate = .ok () := hvalid
  obtain ⟨reason, c, hadvance, hrun⟩ := exists_chain htotal hvalid' hstate henergy .never
  obtain ⟨⟨reason', d⟩, hd, hview⟩ :=
    exists_ok_of_map_eq (Chain.advance_start_budget config initial energy .never k) hadvance
  cases congrArg Prod.fst hview
  exact ⟨reason, c, d, hrun, hd, congrArg Prod.snd hview⟩

/-- A run that is told to stop at poll `k` returns what a run with a budget of `k` moves returns,
and says that it was cancelled if it got so far. A run with a larger budget continues one with a
smaller budget, and its best is no worse. -/
theorem run_anytime_moves [FiniteOrder α] (problem : Problem α) (config : Config α)
    (initial : State α) (htotal : problem.Total) (hvalid : config.validate = .ok ())
    (hstate : initial ≠ []) :
    ∃ energy, problem.energy initial = .ok energy ∧
      (∀ watch k, Watch.FirstStop watch pollNumber k →
        ∃ cut, run problem config watch initial = .ok cut ∧
          (cut.result.cancelled = true ↔ k < config.maxIterations ∧
            ∀ j ≤ k, ∀ c, after (Chain.step problem config) j
              (Chain.start config initial energy) = .ok c →
                ¬ c.temperature < config.finalTemperature) ∧
          (k < config.maxIterations →
            ∃ short, run problem { config with maxIterations := k } .never initial = .ok short ∧
              cut.result = { short.result with cancelled := cut.result.cancelled })) ∧
      ∀ k ≤ config.maxIterations, ∃ short full,
        run problem { config with maxIterations := k } .never initial = .ok short ∧
        run problem config .never initial = .ok full ∧
        short.result.energyHistory.toList <+: full.result.energyHistory.toList ∧
        short.result.temperatureHistory.toList <+: full.result.temperatureHistory.toList ∧
        (Scalar.isFinite energy → Scalar.isFinite short.result.bestEnergy ∧
          Scalar.isFinite full.result.bestEnergy ∧
          full.result.bestEnergy ≤ short.result.bestEnergy) := by
  obtain ⟨energy, henergy⟩ := htotal.energy initial
  refine ⟨energy, henergy, ?_, ?_⟩
  · intro watch k hstop
    obtain ⟨reason, c, hadvance, hrun⟩ := exists_chain htotal hvalid hstate henergy watch
    refine ⟨c.report reason, hrun, ?_, ?_⟩
    · rw [← Chain.cancelled_iff hstop hadvance]
      exact beq_iff_eq
    · intro hk
      obtain ⟨reason', d, u, hshort, hu, hdu⟩ :=
        exists_short_chain htotal hvalid hstate henergy k
      obtain ⟨⟨_, v⟩, hv, hcv⟩ := exists_ok_of_map_eq (Chain.advance_cut hk hstop) hadvance
      cases hu.symm.trans hv
      have hcu : c = u := hcv
      have hcd : c.unreported = d.unreported := by rw [hcu, hdu]
      exact ⟨d.report reason', hshort, Chain.result_of_unreported hcd reason reason'⟩
  · intro k hk
    obtain ⟨reason', d, u, hshort, hu, hdu⟩ := exists_short_chain htotal hvalid hstate henergy k
    obtain ⟨reason, c, hadvance, hrun⟩ := exists_chain htotal hvalid hstate henergy .never
    -- the full run passes where the short one ends
    rw [Chain.advance_eq_runUntil] at hadvance hu
    obtain ⟨reason₁, u', n, hu', hafter⟩ := runUntil_of_le hk hadvance
    cases hu.symm.trans hu'
    have hstart : (Chain.start config initial energy).visit.Sound problem := henergy
    obtain ⟨m, -, hm⟩ := runUntil_eq_ok hu
    have hfirst : u.best.NoWorse (Chain.start config initial energy).best :=
      Chain.best_noWorse_of_after hstart hm
    have hlater : c.best.NoWorse u.best :=
      Chain.best_noWorse_of_after (Chain.tracked_after hstart hm).here hafter
    obtain ⟨henergies, htemperatures⟩ := Chain.histories_prefix_of_after hafter
    -- and up to its reports the short run ends there
    have hresult := Chain.result_of_unreported hdu reason' reason'
    have hbest : d.best = u.best := congrArg Result.best hresult
    have hds : d.energyHistory = u.energyHistory := congrArg Result.energyHistory hresult
    have hdts : d.temperatureHistory = u.temperatureHistory :=
      congrArg Result.temperatureHistory hresult
    rw [← hds] at henergies
    rw [← hdts] at htemperatures
    rw [← hbest] at hfirst hlater
    refine ⟨d.report reason', c.report reason, hshort, hrun, henergies, htemperatures, ?_⟩
    intro hfinite
    have hshortFinite : d.best.IsFinite := (hfirst hfinite).1
    exact ⟨hshortFinite, hlater hshortFinite⟩

def twoMoves : Config Float := { Config.standard with maxIterations := 2 }

/-- Stopped before its second move, a walk down the slide has come as far as with one move. -/
theorem run_anytime_moves_slide :
    Walk.slide.Total ∧ twoMoves.validate = .ok () ∧
    Watch.FirstStop (fun poll => decide (1 ≤ poll.index)) pollNumber 1 ∧
    ∃ cut short, run Walk.slide twoMoves (fun poll => decide (1 ≤ poll.index))
        [3.0, 4.0, 5.0] = .ok cut ∧
      run Walk.slide { twoMoves with maxIterations := 1 } .never [3.0, 4.0, 5.0] = .ok short ∧
      cut.result = { short.result with cancelled := cut.result.cancelled } ∧
      cut.result.cancelled = true ∧ cut.result.bestState = [3.0, 4.0] := by
  have hvalid : twoMoves.validate = .ok () := by rfl
  have hstop : Watch.FirstStop (fun poll => decide (1 ≤ poll.index)) pollNumber 1 := by
    constructor
    · intro j hj
      cases Nat.lt_one_iff.mp hj
      rfl
    · rfl
  obtain ⟨energy, -, hcut, -⟩ := run_anytime_moves Walk.slide twoMoves [3.0, 4.0, 5.0]
    Walk.slide_total hvalid (List.cons_ne_nil _ _)
  obtain ⟨cut, hrun, -, hequal⟩ := hcut _ 1 hstop
  obtain ⟨short, hshort, hresult⟩ := hequal (by decide)
  have hevaluated : (run Walk.slide twoMoves (fun poll => decide (1 ≤ poll.index))
      [3.0, 4.0, 5.0]).toOption.map (fun r => (r.result.cancelled, r.result.bestState)) =
        some (true, [3.0, 4.0]) := by rfl
  rw [hrun] at hevaluated
  have hends := Option.some.inj hevaluated
  exact ⟨Walk.slide_total, hvalid, hstop, cut, short, hrun, hshort, hresult,
    congrArg Prod.fst hends, congrArg Prod.snd hends⟩

end ThermalSearch.Annealing
