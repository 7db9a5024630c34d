import ThermalSearch.Proofs.Tempering.Rounds

/-!
# The best state of a tempering run

Every rung remembers the best state that was found on it, exchanges hand states on without
looking at these memories, and the run compares them once a round, before the exchanges. A rung
may therefore hold a state better than its own best, but never one better than the best of the
run: what it holds was entered on some rung, and compared there.

The invariant (`Tracked`) speaks of the visits of a run: its initial state and all candidates
that were entered on any rung. States held, bests remembered and energies noted are visits, and
the best of the run is a least one.
-/

namespace ThermalSearch.Tempering

variable {α : Type} [Scalar α] {problem : Problem α} {config : Config α}

/-! ## What is entered -/

namespace Replica

/-- The candidates entered in the next `n` moves: each is where the replica is after a move that
was counted as accepted. -/
def entered (problem : Problem α) (temperature : α) (n : Nat) (r : Replica α) :
    List (Visit α) :=
  notes (move problem temperature)
    (fun r r' => if r.accepts < r'.accepts then [r'.visit] else []) n r

/-- The replica `r` has entered the candidates `seen` since it was `origin`. -/
structure Swept (problem : Problem α) (origin : Replica α) (seen : List (Visit α))
    (r : Replica α) : Prop where
  visit : r.visit ∈ origin.visit :: seen
  best : r.best = seen.foldl Visit.better origin.best
  sound : ∀ v ∈ seen, v.Sound problem ∧ v.IsFinite

theorem Swept.move {origin r r' : Replica α} {seen : List (Visit α)} {temperature : α}
    (h : Swept problem origin seen r) (hmove : r.move problem temperature = .ok r') :
    Swept problem origin (seen ++ if r.accepts < r'.accepts then [r'.visit] else []) r' := by
  rcases move_cases hmove with ⟨hvisit, hbest, hcount⟩ | ⟨hsound, hfinite, hbest, hcount⟩
  · -- the candidate was not entered
    rw [if_neg (by omega), List.append_nil]
    exact ⟨hvisit ▸ h.visit, hbest.trans h.best, h.sound⟩
  · rw [if_pos (by omega)]
    constructor
    case visit => simp
    case best => rw [hbest, h.best, List.foldl_append, List.foldl_cons, List.foldl_nil]
    case sound =>
      intro v hv
      rcases List.mem_append.mp hv with hv | hv
      · exact h.sound v hv
      · rw [List.mem_singleton.mp hv]
        exact ⟨hsound, hfinite⟩

theorem swept_of_sweep {n : Nat} {temperature : α} {r r' : Replica α}
    (h : r.sweep problem temperature n = .ok r') :
    Swept problem r (r.entered problem temperature n) r' := by
  rw [sweep_eq_after] at h
  have hstart : Swept problem r [] r := by
    constructor <;> simp
  exact notes_induction (Swept problem r) (fun _ _ _ hs hmove => hs.move hmove) hstart h

/-- Where a swept replica is and what it remembers was there before, or was entered. -/
theorem Swept.held [FiniteOrder α] {origin r : Replica α} {seen all : List (Visit α)}
    (h : Swept problem origin seen r) (horigin : origin.visit ∈ all ∧ origin.best ∈ all)
    (hseen : ∀ v ∈ seen, v ∈ all) : r.visit ∈ all ∧ r.best ∈ all := by
  constructor
  · rcases List.mem_cons.mp h.visit with heq | hv
    · rw [heq]
      exact horigin.1
    · exact hseen _ hv
  · have hleast : Least r.best (origin.best :: seen) := by
      rw [h.best]
      exact Least.foldl_better origin.best seen
    rcases List.mem_cons.mp hleast.mem with heq | hv
    · rw [heq]
      exact horigin.2
    · exact hseen _ hv

theorem Swept.best_noWorse [FiniteOrder α] {origin r : Replica α} {seen : List (Visit α)}
    (h : Swept problem origin seen r) {v : Visit α} (hv : v ∈ seen) : r.best.NoWorse v := by
  rw [h.best]
  exact (Least.foldl_better origin.best seen).noWorse v (List.mem_cons_of_mem _ hv)

end Replica

/-- The candidates entered in a local phase, rung by rung. -/
def enteredInPhase (problem : Problem α) (sweeps : Nat) (temperatures : List α)
    (replicas : List (Replica α)) : List (Visit α) :=
  (List.zipWith (fun temperature r => r.entered problem temperature sweeps) temperatures
    replicas).flatten

/-- What a local phase does to the visits. The list `all` has to hold those the phase starts
from and those it enters. -/
theorem localPhase_entered [FiniteOrder α] {sweeps : Nat} {temperatures : List α}
    {replicas after : List (Replica α)} {all : List (Visit α)}
    (h : localPhase problem sweeps temperatures replicas = .ok after)
    (hheld : ∀ r ∈ replicas, r.visit ∈ all ∧ r.best ∈ all)
    (hentered : ∀ v ∈ enteredInPhase problem sweeps temperatures replicas, v ∈ all) :
    (∀ r ∈ after, r.visit ∈ all ∧ r.best ∈ all) ∧
      ∀ v ∈ enteredInPhase problem sweeps temperatures replicas,
        v.Sound problem ∧ v.IsFinite ∧ ∃ r ∈ after, r.best.NoWorse v := by
  induction temperatures generalizing replicas after with
  | nil =>
    rw [localPhase] at h
    · cases h
      exact ⟨hheld, by simp [enteredInPhase]⟩
    · simp
  | cons temperature temperatures ih =>
    cases replicas with
    | nil =>
      rw [localPhase] at h
      · cases h
        exact ⟨hheld, by simp [enteredInPhase]⟩
      · simp
    | cons r replicas =>
      rcases localPhase_cons_eq_ok.mp h with ⟨r', rest, hr, hrest, rfl⟩
      have hswept : Replica.Swept problem r (r.entered problem temperature sweeps) r' :=
        Replica.swept_of_sweep hr
      have hsplit : enteredInPhase problem sweeps (temperature :: temperatures) (r :: replicas) =
          r.entered problem temperature sweeps ++
            enteredInPhase problem sweeps temperatures replicas := rfl
      rw [hsplit] at hentered ⊢
      have hown : r'.visit ∈ all ∧ r'.best ∈ all :=
        hswept.held (hheld r (by simp)) fun v hv => hentered v (List.mem_append_left _ hv)
      rcases ih hrest (fun s hs => hheld s (List.mem_cons_of_mem _ hs))
        (fun v hv => hentered v (List.mem_append_right _ hv)) with ⟨hothers, hbests⟩
      refine ⟨?_, ?_⟩
      · intro s hs
        rcases List.mem_cons.mp hs with rfl | hs
        · exact hown
        · exact hothers s hs
      · intro v hv
        rcases List.mem_append.mp hv with hv | hv
        · rcases hswept.sound v hv with ⟨hsound, hfinite⟩
          exact ⟨hsound, hfinite, r', by simp, hswept.best_noWorse hv⟩
        · rcases hbests v hv with ⟨hsound, hfinite, s, hs, hle⟩
          exact ⟨hsound, hfinite, s, List.mem_cons_of_mem _ hs, hle⟩

/-! ## The invariant of the rounds -/

namespace Ensemble

/-- The candidates entered on any rung in the next `n` rounds. -/
def entered (problem : Problem α) (config : Config α) (n : Nat) (e : Ensemble α) :
    List (Visit α) :=
  notes (round problem config)
    (fun e _ => enteredInPhase problem config.sweepsPerSwap e.temperatures e.replicas) n e

/-- The ensemble `e` is at the end of a round, and the candidates `seen` were entered since all
its rungs started from `first`. -/
structure Tracked (problem : Problem α) (first : Visit α) (seen : List (Visit α))
    (e : Ensemble α) : Prop where
  start : first.Sound problem
  entered : ∀ v ∈ seen, v.Sound problem ∧ v.IsFinite
  held : ∀ r ∈ e.replicas, r.visit ∈ first :: seen ∧ r.best ∈ first :: seen
  traced : ∀ trace ∈ e.traces, ∀ x ∈ trace, ∃ v ∈ first :: seen, v.energy = x
  best : Least e.best (first :: seen)

variable {first : Visit α} {seen : List (Visit α)} {e e' : Ensemble α}

theorem Tracked.sound (h : Tracked problem first seen e) {v : Visit α} (hv : v ∈ first :: seen) :
    v.Sound problem := by
  rcases List.mem_cons.mp hv with rfl | hv
  · exact h.start
  · exact (h.entered v hv).1

/-- Whatever was visited later than the first state is finite. -/
theorem Tracked.finite_or_first (h : Tracked problem first seen e) {v : Visit α}
    (hv : v ∈ first :: seen) : v.IsFinite ∨ v = first := by
  rcases List.mem_cons.mp hv with rfl | hv
  · exact Or.inr rfl
  · exact Or.inl (h.entered v hv).2

theorem Tracked.isFinite (h : Tracked problem first seen e) (hfirst : first.IsFinite) {v : Visit α}
    (hv : v ∈ first :: seen) : v.IsFinite := by
  rcases h.finite_or_first hv with hfinite | rfl
  · exact hfinite
  · exact hfirst

/-- Replicas that passed their visits around hold what was held before. -/
theorem held_exchangeStates (Q : Visit α → Prop) (h : ∀ r ∈ e.replicas, Q r.visit ∧ Q r.best) :
    ∀ r ∈ e.exchangeStates.replicas, Q r.visit ∧ Q r.best := by
  intro r hr
  have hvisits := exchangePhase_visits_perm e.rounds e.temperatures e.replicas e.tallies
    e.generator
  have hbests := exchangePhase_map_own keptByRung_best e.rounds e.temperatures e.replicas
    e.tallies e.generator
  have hvisit : r.visit ∈ e.replicas.map Replica.visit :=
    hvisits.subset (List.mem_map_of_mem hr)
  have hbest : r.best ∈ e.replicas.map Replica.best := by
    rw [← hbests]
    exact List.mem_map_of_mem hr
  rcases List.mem_map.mp hvisit with ⟨s, hs, hsr⟩
  rcases List.mem_map.mp hbest with ⟨t, ht, htr⟩
  exact ⟨hsr ▸ (h s hs).1, htr ▸ (h t ht).2⟩

/-- The traces grow by the energies the rungs end the round with. -/
theorem traced_exchangeStates {P : α → Prop} (htraces : ∀ trace ∈ e.traces, ∀ x ∈ trace, P x)
    (hrungs : ∀ r ∈ e.exchangeStates.replicas, P r.energy) :
    ∀ trace ∈ e.exchangeStates.traces, ∀ x ∈ trace, P x := by
  intro trace htrace x hx
  have hzip : trace ∈ (e.traces.zip e.exchangeStates.replicas).map
      (Function.uncurry fun trace r => trace.push r.energy) := by
    rw [List.map_uncurry_zip_eq_zipWith]
    exact htrace
  rcases List.mem_map.mp hzip with ⟨⟨old, r⟩, hpair, rfl⟩
  rcases List.of_mem_zip hpair with ⟨hold, hr⟩
  rcases Array.mem_push.mp hx with hx | rfl
  · exact htraces old hold x hx
  · exact hrungs r hr

/-- The end of a round whose local phase entered `new`. The best of the run is brought up to date
before the exchanges, and stays least because exchanges bring in no visit. -/
theorem Tracked.conclude [FiniteOrder α] {after : List (Replica α)} {new : List (Visit α)}
    (h : Tracked problem first seen e)
    (hheld : ∀ r ∈ after, r.visit ∈ first :: (seen ++ new) ∧ r.best ∈ first :: (seen ++ new))
    (hnew : ∀ v ∈ new, v.Sound problem ∧ v.IsFinite ∧ ∃ r ∈ after, r.best.NoWorse v) :
    Tracked problem first (seen ++ new) ({ e with replicas := after }.conclude config) := by
  have hold : ∀ v ∈ first :: seen, v ∈ first :: (seen ++ new) := by
    intro v hv
    rw [← List.cons_append]
    exact List.mem_append_left new hv
  rcases conclude_frame config { e with replicas := after }
    with ⟨temperatures, tallies, journal, hframe⟩
  generalize hmerged : { e with replicas := after }.trackBest = merged at hframe
  have hreplicas : merged.replicas = after := by rw [← hmerged, replicas_trackBest]
  have htraces : merged.traces = e.traces := by rw [← hmerged, traces_trackBest]
  have hbest : merged.best = (after.map Replica.best).foldl Visit.better e.best := by
    rw [← hmerged, best_trackBest]
    rfl
  have hheld' : ∀ r ∈ merged.exchangeStates.replicas,
      r.visit ∈ first :: (seen ++ new) ∧ r.best ∈ first :: (seen ++ new) :=
    held_exchangeStates (· ∈ first :: (seen ++ new)) (hreplicas ▸ hheld)
  rw [hframe]
  constructor
  case start => exact h.start
  case entered =>
    intro v hv
    rcases List.mem_append.mp hv with hv | hv
    · exact h.entered v hv
    · exact ⟨(hnew v hv).1, (hnew v hv).2.1⟩
  case held => exact hheld'
  case traced =>
    refine traced_exchangeStates ?_ ?_
    · intro trace htrace x hx
      rw [htraces] at htrace
      rcases h.traced trace htrace x hx with ⟨v, hv, hvx⟩
      exact ⟨v, hold v hv, hvx⟩
    · intro r hr
      exact ⟨r.visit, (hheld' r hr).1, rfl⟩
  case best =>
    have hleast : Least merged.best (first :: (seen ++ new)) := by
      rw [hbest]
      refine Least.merge (hold _ h.best.mem) ?_ ?_
      · intro c hc
        rcases List.mem_map.mp hc with ⟨r, hr, rfl⟩
        exact (hheld r hr).2
      · -- a visit is covered by the old best, or by the best of the rung that entered it
        intro v hv hfin
        rw [← List.cons_append] at hv
        rcases List.mem_append.mp hv with hv | hv
        · exact ⟨e.best, by simp, h.best.noWorse v hv hfin⟩
        · rcases hnew v hv with ⟨-, -, r, hr, hle⟩
          exact ⟨r.best, List.mem_cons_of_mem _ (List.mem_map_of_mem hr), hle hfin⟩
    exact hleast

theorem Tracked.round [FiniteOrder α] (h : Tracked problem first seen e)
    (hround : e.round problem config = .ok e') :
    Tracked problem first
      (seen ++ enteredInPhase problem config.sweepsPerSwap e.temperatures e.replicas) e' := by
  rcases round_eq_ok.mp hround with ⟨after, hlocal, rfl⟩
  have hheld : ∀ r ∈ e.replicas, ∀ v, v = r.visit ∨ v = r.best → v ∈ first :: (seen ++
      enteredInPhase problem config.sweepsPerSwap e.temperatures e.replicas) := by
    intro r hr v hv
    rw [← List.cons_append]
    rcases hv with rfl | rfl
    · exact List.mem_append_left _ (h.held r hr).1
    · exact List.mem_append_left _ (h.held r hr).2
  have hphase := localPhase_entered hlocal
    (fun r hr => ⟨hheld r hr _ (Or.inl rfl), hheld r hr _ (Or.inr rfl)⟩) (by
      intro v hv
      rw [← List.cons_append]
      exact List.mem_append_right _ hv)
  exact h.conclude hphase.1 hphase.2

omit [Scalar α] in
theorem startReplicas_visits (initial : State α) (energy : α) (n : Nat) (g : Generator) :
    ∀ r ∈ (startReplicas initial energy n g).1,
      r.visit = { state := initial, energy := energy } ∧
        r.best = { state := initial, energy := energy } := by
  induction n generalizing g with
  | zero =>
    intro r hr
    cases hr
  | succ n ih =>
    intro r hr
    rcases List.mem_cons.mp hr with rfl | hr
    · exact ⟨rfl, rfl⟩
    · exact ih _ r hr

theorem tracked_start [FiniteOrder α] {initial : State α} {energy : α}
    (h : problem.energy initial = .ok energy) :
    Tracked problem { state := initial, energy := energy } []
      (start config initial energy) := by
  have hreplicas := startReplicas_visits initial energy config.effectiveReplicas
    (Generator.ofSeed config.seed)
  constructor
  case start => exact h
  case entered => simp
  case held =>
    intro r hr
    rcases hreplicas r hr with ⟨hvisit, hbest⟩
    simp [hvisit, hbest]
  case traced =>
    intro trace htrace x hx
    rw [List.eq_of_mem_replicate htrace] at hx
    cases Array.mem_toList_iff.mpr hx
  case best => exact (FirstLeast.singleton _).least

theorem tracked_after [FiniteOrder α] {initial : State α} {energy : α} {n : Nat}
    (henergy : problem.energy initial = .ok energy)
    (h : after (round problem config) n (start config initial energy) = .ok e) :
    Tracked problem { state := initial, energy := energy }
      ((start config initial energy).entered problem config n) e :=
  notes_induction (Tracked problem { state := initial, energy := energy })
    (fun _ _ _ ht hround => ht.round hround) (tracked_start henergy) h

end Ensemble

/-! ## Results -/

/-- The best of a run is least among its initial state and all candidates entered on any rung in
any round, and so among all energies the result tells of; and no rung loses track of the energy
of its state or of its best at any end of a round. -/
theorem run_best_least [FiniteOrder α] (problem : Problem α) (config : Config α) (watch : Watch)
    (initial : State α) :
    (problem.Total → config.validate = .ok () → initial ≠ [] → config.reserve = .ok () →
      ∃ report, run problem config watch initial = .ok report) ∧
    (∀ energy n e, problem.energy initial = .ok energy →
      after (Ensemble.round problem config) n (Ensemble.start config initial energy) = .ok e →
      ∀ r ∈ e.replicas, problem.energy r.state = .ok r.energy ∧
        problem.energy r.bestState = .ok r.bestEnergy) ∧
    ∀ report, run problem config watch initial = .ok report →
      ∃ energy, problem.energy initial = .ok energy ∧
        let r := report.result
        let entered := (Ensemble.start config initial energy).entered problem config r.rounds
        problem.energy r.bestState = .ok r.bestEnergy ∧
        (r.bestState = initial ∨ ∃ v ∈ entered, r.bestState = v.state) ∧
        (Scalar.isFinite energy ∨ (∃ v ∈ entered, v.IsFinite) → Scalar.isFinite r.bestEnergy ∧
          (Scalar.isFinite energy → r.bestEnergy ≤ energy) ∧
          (∀ v ∈ entered, r.bestEnergy ≤ v.energy) ∧
          (∀ trace ∈ r.energyTraces, ∀ x ∈ trace, Scalar.isFinite x → r.bestEnergy ≤ x) ∧
          ∀ x ∈ r.replicaEnergies, Scalar.isFinite x → r.bestEnergy ≤ x) := by
  refine ⟨run_total, ?_, ?_⟩
  · intro energy n e henergy hafter r hr
    have htracked := Ensemble.tracked_after henergy hafter
    exact ⟨htracked.sound (htracked.held r hr).1, htracked.sound (htracked.held r hr).2⟩
  · intro report h
    rcases exists_after_of_run h with ⟨energy, cancelled, e, henergy, hafter, rfl⟩
    refine ⟨energy, henergy, ?_⟩
    intro r entered
    have htracked : Ensemble.Tracked problem { state := initial, energy := energy } entered e :=
      Ensemble.tracked_after henergy hafter
    have hbelow : ∀ v ∈ { state := initial, energy := energy } :: entered, v.IsFinite →
        Scalar.isFinite r.bestEnergy ∧ r.bestEnergy ≤ v.energy := htracked.best.noWorse
    refine ⟨htracked.sound htracked.best.mem, ?_, ?_⟩
    · rcases List.mem_cons.mp htracked.best.mem with heq | hv
      · exact Or.inl (congrArg Visit.state heq)
      · exact Or.inr ⟨e.best, hv, rfl⟩
    · intro hfin
      refine ⟨?_, ?_, ?_, ?_, ?_⟩
      · rcases hfin with hfin | ⟨v, hv, hfin⟩
        · exact (hbelow { state := initial, energy := energy } (by simp) hfin).1
        · exact (hbelow v (List.mem_cons_of_mem _ hv) hfin).1
      · intro henergyFin
        exact (hbelow { state := initial, energy := energy } (by simp) henergyFin).2
      · intro v hv
        exact (hbelow v (List.mem_cons_of_mem _ hv) (htracked.entered v hv).2).2
      · intro trace htrace x hx hxfin
        rcases htracked.traced trace htrace x hx with ⟨v, hv, rfl⟩
        exact (hbelow v hv hxfin).2
      · intro x hx hxfin
        rcases List.mem_map.mp hx with ⟨s, hs, rfl⟩
        exact (hbelow s.visit (htracked.held s hs).1 hxfin).2

/-- Both replicas go down the slide, and the run remembers where they came to. -/
theorem run_best_least_slide :
    Walk.slide.Total ∧ oneRound.validate = .ok () ∧ oneRound.reserve = .ok () ∧
    ∃ report, run Walk.slide oneRound .never [3.0, 4.0] = .ok report ∧
      report.result.bestState = [3.0] ∧ report.result.bestEnergy = 9.0 ∧
      report.result.bestEnergy ≤ 25.0 ∧
      ∀ x ∈ report.result.replicaEnergies, Scalar.isFinite x → report.result.bestEnergy ≤ x := by
  have hvalid : oneRound.validate = .ok () := by rfl
  have hroom : oneRound.reserve = .ok () := by rfl
  have hpromise := run_best_least Walk.slide oneRound .never [3.0, 4.0]
  rcases hpromise.1 Walk.slide_total hvalid (List.cons_ne_nil _ _) hroom with ⟨report, hreport⟩
  rcases hpromise.2.2 report hreport with ⟨energy, henergy, -, -, hleast⟩
  have hstart : Walk.slide.energy [3.0, 4.0] = .ok 25.0 := by rfl
  cases hstart.symm.trans henergy
  have hfinite : Scalar.isFinite (25.0 : Float) = true := by rfl
  rcases hleast (Or.inl hfinite) with ⟨-, hbelow, -, -, hrungs⟩
  have hevaluated : (run Walk.slide oneRound .never [3.0, 4.0]).toOption.map
      (fun r => (r.result.bestState, r.result.bestEnergy)) = some ([3.0], 9.0) := by rfl
  rw [hreport] at hevaluated
  have hbest := Option.some.inj hevaluated
  exact ⟨Walk.slide_total, hvalid, hroom, report, hreport, congrArg Prod.fst hbest, congrArg Prod.snd hbest,
    hbelow hfinite, hrungs⟩

end ThermalSearch.Tempering
