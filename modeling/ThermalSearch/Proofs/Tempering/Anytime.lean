import ThermalSearch.Proofs.Settings
import ThermalSearch.Proofs.Tempering.Shape

/-!
# Tempering runs that end early

A tempering run is asked between rounds whether it should stop, when all rungs, traces and tallies
agree on how many rounds there were. So its result is then that of a run of so many rounds
(`run_anytime_rounds`), and a run of more rounds goes on from there: its traces are longer, and its
best is no worse.

The room for the traces is taken before the watch is first asked, and by the number of rounds there
may be, not by how many are made. A run of too many rounds therefore returns nothing even if it is
stopped at once, when a run of no rounds would have returned its initial state (`endlessRounds`).
-/

namespace ThermalSearch.Tempering

variable {α : Type} [Scalar α] {problem : Problem α} {config : Config α}

namespace Ensemble

variable {initial : State α} {energy : α} {watch : Watch} {e e' : Ensemble α} {cancelled : Bool}

/-! ## Exits -/

/-- A run that nothing stops makes all its rounds. -/
theorem exit_of_never {n : Nat} (h : e.advance problem config .never n = .ok (cancelled, e')) :
    cancelled = false ∧ after (round problem config) n e = .ok e' := by
  rw [advance_eq_runUntil] at h
  obtain ⟨m, -, hafter, -, ⟨rfl, rfl⟩ | ⟨-, hexit⟩⟩ := exit_of_runUntil h
  · exact ⟨rfl, hafter⟩
  · cases hexit

/-- A run that is stopped at poll `k` makes the rounds before it. -/
theorem exit_of_firstStop {k budget : Nat} (hstop : watch.FirstStop (pollNumber config) k)
    (hk : k < budget)
    (h : (start config initial energy).advance problem config watch budget =
      .ok (cancelled, e)) :
    cancelled = true ∧
      after (round problem config) k (start config initial energy) = .ok e := by
  rw [advance_eq_runUntil] at h
  obtain ⟨n, hn, hafter, hgo, hend⟩ := exit_of_runUntil h
  have hexit {m : Nat} {u : Ensemble α}
      (hu : after (round problem config) m (start config initial energy) = .ok u) :
      exit? watch u = if watch (pollNumber config m) then some true else none := by
    rw [exit?, poll_after hu]
  -- the loop goes no further than to `k`, and does not end before
  have hle : n ≤ k := by
    refine le_of_exit hafter hgo fun u hu hnone => ?_
    rw [hexit hu, hstop.here] at hnone
    cases hnone
  have hnk : n = k := by
    by_contra hearly
    rcases hend with ⟨rfl, -⟩ | ⟨-, hexited⟩
    · omega
    · rw [hexit hafter, hstop.before n (by omega)] at hexited
      cases hexited
  subst hnk
  rcases hend with ⟨rfl, -⟩ | ⟨-, hexited⟩
  · omega
  · rw [hexit hafter, hstop.here] at hexited
    exact ⟨(Option.some.inj hexited).symm, hafter⟩

/-! ## Rounds that follow -/

/-- A round that comes later adds to the traces and leaves their beginnings. -/
theorem traces_take_of_round {k : Nat} (hshaped : Shaped config e) (hk : k ≤ e.rounds)
    (h : e.round problem config = .ok e') :
    e'.traces.map (·.toList.take k) = e.traces.map (·.toList.take k) := by
  obtain ⟨replicas, hlocal, rfl⟩ := round_eq_ok.mp h
  obtain ⟨temperatures, tallies, journal, hframe⟩ :=
    conclude_frame config { e with replicas := replicas }
  rw [hframe]
  refine hshaped.map_traces_exchangeStates (hshaped.length_moved hlocal) ?_
  intro trace htrace energy
  have hlong : k ≤ trace.toList.length := by
    rw [Array.length_toList, hshaped.size_of_mem htrace]
    exact hk
  rw [Array.toList_push, List.take_append_of_le_length hlong]

theorem traces_take_of_after {k n : Nat} (hshaped : Shaped config e) (hk : k ≤ e.rounds)
    (h : after (round problem config) n e = .ok e') :
    e'.traces.map (·.toList.take k) = e.traces.map (·.toList.take k) := by
  have hinv : Shaped config e' ∧ k ≤ e'.rounds ∧
      e'.traces.map (·.toList.take k) = e.traces.map (·.toList.take k) := by
    refine after_induction (fun d => Shaped config d ∧ k ≤ d.rounds ∧
      d.traces.map (·.toList.take k) = e.traces.map (·.toList.take k)) ?_ ⟨hshaped, hk, rfl⟩ h
    rintro d d' ⟨hd, hdk, htraces⟩ hround
    refine ⟨hd.round hround, ?_, ?_⟩
    · rw [rounds_of_round hround]
      exact Nat.le_succ_of_le hdk
    · rw [traces_take_of_round hd hdk hround, htraces]
  exact hinv.2.2

/-- The traces so far are where those of a later ensemble begin. -/
theorem traces_eq_take {n : Nat} (hshaped : Shaped config e)
    (h : after (round problem config) n e = .ok e') :
    e.traces.map Array.toList = e'.traces.map (·.toList.take e.rounds) := by
  rw [traces_take_of_after hshaped le_rfl h]
  refine List.map_congr_left fun trace htrace => (List.take_of_length_le ?_).symm
  rw [Array.length_toList, hshaped.size_of_mem htrace]

/-- No round makes the best worse. -/
theorem best_noWorse_of_round [FiniteOrder α] (h : e.round problem config = .ok e') :
    e'.best.NoWorse e.best := by
  obtain ⟨replicas, -, rfl⟩ := round_eq_ok.mp h
  obtain ⟨temperatures, tallies, journal, hframe⟩ :=
    conclude_frame config { e with replicas := replicas }
  have hbest : ({ e with replicas := replicas }.conclude config).best =
      (replicas.map Replica.best).foldl Visit.better e.best := by
    rw [hframe]
    exact best_trackBest { e with replicas := replicas }
  rw [hbest]
  exact (Least.foldl_better e.best _).noWorse e.best List.mem_cons_self

theorem best_noWorse_of_after [FiniteOrder α] {n : Nat}
    (h : after (round problem config) n e = .ok e') : e'.best.NoWorse e.best :=
  after_induction (fun d => d.best.NoWorse e.best)
    (fun _ _ hd hround => (best_noWorse_of_round hround).trans hd) (Visit.NoWorse.refl e.best) h

end Ensemble

/-! ## Results -/

variable {initial : State α} {energy : α}

/-- The ensemble that a run ends with. -/
theorem exists_ensemble (htotal : problem.Total) (hvalid : config.validate = .ok ())
    (hstate : initial ≠ []) (hroom : config.reserve = .ok ())
    (henergy : problem.energy initial = .ok energy) (watch : Watch) :
    ∃ cancelled e, (Ensemble.start config initial energy).advance problem config watch
        config.totalSwaps = .ok (cancelled, e) ∧
      run problem config watch initial = .ok (e.report cancelled) := by
  obtain ⟨report, hrun⟩ : ∃ report, run problem config watch initial = .ok report :=
    run_total htotal hvalid hstate hroom
  obtain ⟨-, -, -, energy', henergy', cancelled, e, hadvance, rfl⟩ := run_eq_ok.mp hrun
  cases henergy.symm.trans henergy'
  exact ⟨cancelled, e, hadvance, hrun⟩

/-- The run of fewer rounds, and an ensemble on the way of the run that is what it ends with. -/
theorem exists_short_ensemble (htotal : problem.Total) (hvalid : config.validate = .ok ())
    (hstate : initial ≠ []) (hroom : config.reserve = .ok ())
    (henergy : problem.energy initial = .ok energy) {k : Nat} (hk : k ≤ config.totalSwaps) :
    ∃ d e : Ensemble α, run problem { config with totalSwaps := k } .never initial =
        .ok (d.report false) ∧
      after (Ensemble.round problem config) k (Ensemble.start config initial energy) = .ok e ∧
      d.unreported = e.unreported := by
  have hvalid' : { config with totalSwaps := k }.validate = .ok () := hvalid
  have hroom' : { config with totalSwaps := k }.reserve = .ok () := by
    obtain ⟨hrungs, htraces⟩ := Config.reserve_eq_ok_iff.mp hroom
    exact Config.reserve_eq_ok_iff.mpr ⟨hrungs, by dsimp only; omega⟩
  obtain ⟨cancelled, d, hadvance, hrun⟩ :=
    exists_ensemble htotal hvalid' hstate hroom' henergy .never
  obtain ⟨⟨cancelled', e⟩, hd, hview⟩ := exists_ok_of_map_eq (Ensemble.advance_start_settings
    problem config k config.parallel initial energy .never k) hadvance
  obtain ⟨rfl, -⟩ := Ensemble.exit_of_never hadvance
  exact ⟨d, e, hrun, (Ensemble.exit_of_never hd).2, congrArg Prod.snd hview⟩

/-- A run that is told to stop before round `k` ends with the ensemble of so many rounds. -/
theorem run_of_firstStop (htotal : problem.Total) (hvalid : config.validate = .ok ())
    (hstate : initial ≠ []) (hroom : config.reserve = .ok ())
    (henergy : problem.energy initial = .ok energy) {k : Nat} (hk : k < config.totalSwaps)
    {e : Ensemble α} (he : after (Ensemble.round problem config) k
      (Ensemble.start config initial energy) = .ok e)
    {watch : Watch} (hstop : watch.FirstStop (pollNumber config) k) :
    run problem config watch initial = .ok (e.report true) := by
  obtain ⟨cancelled, c, hadvance, hrun⟩ :=
    exists_ensemble htotal hvalid hstate hroom henergy watch
  obtain ⟨rfl, hc⟩ := Ensemble.exit_of_firstStop hstop hk hadvance
  cases he.symm.trans hc
  exact hrun

/-- A run returns only if there is room for its replicas and for traces of all its rounds, even if it
is told to stop before the first one. With that room, a run that is told to stop before round `k`
returns what a run of `k` rounds returns, and says that it was cancelled. A run of more rounds
continues one of fewer rounds, and its best is no worse. -/
theorem run_anytime_rounds [FiniteOrder α] (problem : Problem α) (config : Config α)
    (initial : State α) (htotal : problem.Total) (hvalid : config.validate = .ok ())
    (hstate : initial ≠ []) :
    (∀ watch, (∃ report, run problem config watch initial = .ok report) →
      config.effectiveReplicas * 400 < 2 ^ 63 ∧ config.totalSwaps * 8 < 2 ^ 63) ∧
    (config.effectiveReplicas * 400 < 2 ^ 63 → config.totalSwaps * 8 < 2 ^ 63 →
      ∃ energy, problem.energy initial = .ok energy ∧
        ∀ k ≤ config.totalSwaps, ∃ short full,
          run problem { config with totalSwaps := k } .never initial = .ok short ∧
          run problem config .never initial = .ok full ∧
          (∀ watch, k < config.totalSwaps → Watch.FirstStop watch (pollNumber config) k →
            ∃ cut, run problem config watch initial = .ok cut ∧
              cut.result = { short.result with cancelled := true } ∧
              cut.evaluations = short.evaluations) ∧
          (∀ trace ∈ short.result.energyTraces, trace.size = k) ∧
          short.result.energyTraces.map Array.toList =
            full.result.energyTraces.map (·.toList.take k) ∧
          (Scalar.isFinite energy → Scalar.isFinite short.result.bestEnergy ∧
            Scalar.isFinite full.result.bestEnergy ∧
            full.result.bestEnergy ≤ short.result.bestEnergy)) := by
  constructor
  · intro watch hreturns
    exact Config.reserve_eq_ok_iff.mp ((exists_run_iff htotal hvalid hstate).mp hreturns)
  intro hreplicas hswaps
  have hroom : config.reserve = .ok () := Config.reserve_eq_ok_iff.mpr ⟨hreplicas, hswaps⟩
  obtain ⟨energy, henergy⟩ := htotal.energy initial
  refine ⟨energy, henergy, ?_⟩
  intro k hk
  obtain ⟨d, e, hshort, he, hde⟩ := exists_short_ensemble htotal hvalid hstate hroom henergy hk
  obtain ⟨cancelled, e', hadvance, hrun⟩ :=
    exists_ensemble htotal hvalid hstate hroom henergy .never
  obtain ⟨rfl, he'⟩ := Ensemble.exit_of_never hadvance
  -- the full run passes where the short one ends
  rw [← Nat.add_sub_cancel' hk] at he'
  obtain ⟨u, hu, hafter⟩ := after_add_eq_ok.mp he'
  cases he.symm.trans hu
  have hshaped : Ensemble.Shaped config e := Ensemble.shaped_after he
  have hrounds : e.rounds = k := by
    rw [Ensemble.rounds_after he]
    exact Nat.zero_add k
  -- and up to its reports the short run ends there
  have hresult := Ensemble.result_of_unreported hde false false
  have htraces : d.traces = e.traces := congrArg Result.energyTraces hresult
  have hbest : d.bestEnergy = e.bestEnergy := congrArg Result.bestEnergy hresult
  refine ⟨d.report false, e'.report false, hshort, hrun, ?_, ?_, ?_, ?_⟩
  · intro watch hlt hstop
    refine ⟨e.report true, run_of_firstStop htotal hvalid hstate hroom henergy hlt he hstop, ?_, ?_⟩
    · exact Ensemble.result_of_unreported hde.symm true false
    · exact Ensemble.evaluations_of_unreported hde.symm
  · intro trace htrace
    have htrace' : trace ∈ e.traces := by
      rw [← htraces]
      exact htrace
    rw [hshaped.size_of_mem htrace', hrounds]
  · show d.traces.map Array.toList = e'.traces.map (·.toList.take k)
    rw [htraces, ← hrounds, Ensemble.traces_eq_take hshaped hafter]
  · intro hfinite
    have hfirst : e.best.NoWorse { state := initial, energy := energy } :=
      Ensemble.best_noWorse_of_after he
    have hlater : e'.best.NoWorse e.best := Ensemble.best_noWorse_of_after hafter
    show Scalar.isFinite d.bestEnergy ∧ _ ∧ e'.bestEnergy ≤ d.bestEnergy
    rw [hbest]
    have hshortFinite : e.best.IsFinite := (hfirst hfinite).1
    exact ⟨hshortFinite, hlater hshortFinite⟩

def twoRounds : Config Float := { oneRound with totalSwaps := 2 }

/-- More rounds than there is room for in any trace. -/
def endlessRounds : Config Float := { oneRound with totalSwaps := 2 ^ 60 }

/-- Stopped before its second round, a run down the slide has come as far as with one round. A run of
more rounds than there is room for returns nothing, although it is stopped before the first one. -/
theorem run_anytime_rounds_slide :
    (Walk.slide.Total ∧ twoRounds.validate = .ok () ∧ twoRounds.effectiveReplicas * 400 < 2 ^ 63 ∧
      twoRounds.totalSwaps * 8 < 2 ^ 63 ∧
      Watch.FirstStop (fun poll => decide (1 ≤ poll.index)) (pollNumber twoRounds) 1 ∧
      ∃ cut short, run Walk.slide twoRounds (fun poll => decide (1 ≤ poll.index))
          [3.0, 4.0, 5.0] = .ok cut ∧
        run Walk.slide { twoRounds with totalSwaps := 1 } .never [3.0, 4.0, 5.0] = .ok short ∧
        cut.result = { short.result with cancelled := true } ∧ cut.result.rounds = 1 ∧
        cut.result.bestState = [3.0, 4.0]) ∧
    endlessRounds.validate = .ok () ∧ 0 < endlessRounds.totalSwaps ∧
      Watch.FirstStop .always (pollNumber endlessRounds) 0 ∧
      (∃ short, run Walk.slide { endlessRounds with totalSwaps := 0 } .never [3.0, 4.0] =
        .ok short) ∧
      ¬ ∃ cut, run Walk.slide endlessRounds .always [3.0, 4.0] = .ok cut := by
  have hvalid : twoRounds.validate = .ok () := by rfl
  have hvalid' : endlessRounds.validate = .ok () := by rfl
  have hstop : Watch.FirstStop (fun poll => decide (1 ≤ poll.index)) (pollNumber twoRounds) 1 := by
    constructor
    · intro j hj
      cases Nat.lt_one_iff.mp hj
      rfl
    · rfl
  have hstop' : Watch.FirstStop .always (pollNumber endlessRounds) 0 := ⟨nofun, rfl⟩
  refine ⟨⟨Walk.slide_total, hvalid, by decide, by decide, hstop, ?_⟩, hvalid', by decide, hstop',
    ?_, ?_⟩
  · obtain ⟨-, hlaw⟩ := run_anytime_rounds Walk.slide twoRounds [3.0, 4.0, 5.0]
      Walk.slide_total hvalid (List.cons_ne_nil _ _)
    obtain ⟨energy, -, hanytime⟩ := hlaw (by decide) (by decide)
    obtain ⟨short, full, hshort, -, hstopped, -⟩ := hanytime 1 (by decide)
    obtain ⟨cut, hcut, hresult, -⟩ := hstopped _ (by decide) hstop
    have hevaluated : (run Walk.slide twoRounds (fun poll => decide (1 ≤ poll.index))
        [3.0, 4.0, 5.0]).toOption.map (fun r => (r.result.rounds, r.result.bestState)) =
          some (1, [3.0, 4.0]) := by rfl
    rw [hcut] at hevaluated
    have hends := Option.some.inj hevaluated
    exact ⟨cut, short, hcut, hshort, hresult, congrArg Prod.fst hends, congrArg Prod.snd hends⟩
  · exact run_total Walk.slide_total hvalid' (List.cons_ne_nil _ _) (by rfl)
  · intro hreturns
    obtain ⟨honly, -⟩ := run_anytime_rounds Walk.slide endlessRounds [3.0, 4.0]
      Walk.slide_total hvalid' (List.cons_ne_nil _ _)
    obtain ⟨-, htraces⟩ := honly _ hreturns
    exact absurd htraces (by decide)

end ThermalSearch.Tempering
