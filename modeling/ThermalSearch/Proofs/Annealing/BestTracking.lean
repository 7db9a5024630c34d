import ThermalSearch.Proofs.Annealing.Trajectory

/-!
# The best state of an annealing run

An annealing run visits its initial state and then, after each move, the state it is in: the
candidate if it was entered, the old state again if not. Its result is the first of these visits
with least finite energy. Reheats raise the temperature and touch nothing of this.

The invariant (`Tracked`) describes a chain by the visits since some earlier point: the best is
the left fold of `Visit.better` over them, and the histories list their energies.
-/

namespace ThermalSearch.Annealing

variable {α : Type} [Scalar α] {problem : Problem α} {config : Config α}

namespace Chain

/-- Where the chain is after each of the next `n` moves. -/
def visits (problem : Problem α) (config : Config α) (n : Nat) (c : Chain α) : List (Visit α) :=
  notes (step problem config) (fun _ c' => [c'.visit]) n c

/-- The chain `c` has made the visits `seen` since it was at `origin`. -/
structure Tracked (problem : Problem α) (origin : Chain α) (seen : List (Visit α))
    (c : Chain α) : Prop where
  here : c.visit.Sound problem
  sound : ∀ v ∈ seen, v.Sound problem
  best : c.best = seen.foldl Visit.better origin.best
  energyHistory : c.energyHistory.toList = origin.energyHistory.toList ++ seen.map Visit.energy
  temperatureHistory :
    c.temperatureHistory.size = origin.temperatureHistory.size + seen.length
  iterations : c.iterations = origin.iterations + seen.length
  moves : c.accepts + c.rejects = origin.accepts + origin.rejects + seen.length

theorem Tracked.refl {c : Chain α} (h : c.visit.Sound problem) : Tracked problem c [] c := by
  constructor <;> simp [h]

/-- A step adds the visit it ends with. -/
theorem Tracked.step {origin c c' : Chain α} {seen : List (Visit α)}
    (h : Tracked problem origin seen c) (hstep : c.step problem config = .ok c') :
    Tracked problem origin (seen ++ [c'.visit]) c' := by
  have hstepped : Stepped problem c c' := stepped_of_step hstep
  have hsound : c'.visit.Sound problem := by
    rcases hstepped.visit with hstay | hmoved
    · rw [hstay]
      exact h.here
    · exact hmoved
  constructor
  case here => exact hsound
  case sound =>
    intro v hv
    rcases List.mem_append.mp hv with hv | hv
    · exact h.sound v hv
    · rw [List.mem_singleton.mp hv]
      exact hsound
  case best => rw [hstepped.best, h.best, List.foldl_append, List.foldl_cons, List.foldl_nil]
  case energyHistory =>
    rw [hstepped.energyHistory, Array.toList_push, h.energyHistory, List.map_append,
      List.append_assoc]
    rfl
  case temperatureHistory =>
    rw [hstepped.temperatureHistory, Array.size_push, h.temperatureHistory, List.length_append]
    rfl
  case iterations =>
    rw [hstepped.iterations, h.iterations, List.length_append]
    rfl
  case moves =>
    rw [hstepped.moves, h.moves, List.length_append]
    rfl

/-- Since the start of a run there is one entry of each kind for every visit. -/
theorem Tracked.counts {initial : State α} {energy : α} {seen : List (Visit α)} {c : Chain α}
    (h : Tracked problem (start config initial energy) seen c) :
    c.accepts + c.rejects = c.iterations ∧ c.energyHistory.size = c.iterations ∧
      c.temperatureHistory.size = c.iterations := by
  have hiterations : c.iterations = 0 + seen.length := h.iterations
  have hmoves : c.accepts + c.rejects = 0 + 0 + seen.length := h.moves
  have htemperatures : c.temperatureHistory.size = 0 + seen.length := h.temperatureHistory
  have henergies : c.energyHistory.toList.length = ([] ++ seen.map Visit.energy).length :=
    congrArg List.length h.energyHistory
  rw [List.nil_append, List.length_map, Array.length_toList] at henergies
  refine ⟨?_, ?_, ?_⟩ <;> omega

theorem tracked_after {n : Nat} {c c' : Chain α} (hsound : c.visit.Sound problem)
    (h : after (step problem config) n c = .ok c') :
    Tracked problem c (c.visits problem config n) c' :=
  notes_induction (Tracked problem c) (fun _ _ _ hs hstep => hs.step hstep)
    (Tracked.refl hsound) h

/-- The best never gets worse, however the temperature goes. -/
theorem best_noWorse_of_after [FiniteOrder α] {n : Nat} {c c' : Chain α}
    (hsound : c.visit.Sound problem) (h : after (step problem config) n c = .ok c') :
    c'.best.NoWorse c.best := by
  have hbest : c'.best = (c.visits problem config n).foldl Visit.better c.best :=
    (tracked_after hsound h).best
  rw [hbest]
  exact (Least.foldl_better c.best _).noWorse c.best List.mem_cons_self

/-- No step makes the best worse, and the reheats among them leave it alone. -/
theorem best_noWorse_of_le [FiniteOrder α] {m n : Nat} {origin c c' : Chain α}
    (hsound : origin.visit.Sound problem) (hmn : m ≤ n)
    (hc : after (step problem config) m origin = .ok c)
    (hc' : after (step problem config) n origin = .ok c') : c'.best.NoWorse c.best := by
  have hsplit : after (step problem config) (m + (n - m)) origin = .ok c' := by
    rw [Nat.add_sub_cancel' hmn]
    exact hc'
  -- the chain after `m` moves is the one the later moves start from
  rcases after_add_eq_ok.mp hsplit with ⟨u, hu, hrest⟩
  have hcu : c = u := Except.ok.inj (hc.symm.trans hu)
  rw [← hcu] at hrest
  exact best_noWorse_of_after (tracked_after hsound hc).here hrest

end Chain

/-! ## Results -/

/-- The best visit a result tells of. -/
def Result.best (r : Result α) : Visit α := { state := r.bestState, energy := r.bestEnergy }

/-- The result of a run is the first of its visits with least finite energy; its histories list
the energies of the visits, and its counts fit them. -/
theorem run_best_firstLeast [FiniteOrder α] (problem : Problem α) (config : Config α)
    (watch : Watch) (initial : State α) :
    (problem.Total → config.validate = .ok () → initial ≠ [] →
      ∃ report, run problem config watch initial = .ok report) ∧
    ∀ report, run problem config watch initial = .ok report →
      ∃ energy, problem.energy initial = .ok energy ∧
        let r := report.result
        let origin := Chain.start config initial energy
        let visits := origin.visit :: origin.visits problem config r.iterations
        let energies := energy :: r.energyHistory.toList
        r.best.Sound problem ∧ FirstLeast r.best visits ∧ energies = visits.map Visit.energy ∧
        -- read off the energies alone: the minimum of the finite ones
        ((∃ x ∈ energies, Scalar.isFinite x) → Scalar.isFinite r.bestEnergy ∧
          r.bestEnergy ∈ energies ∧ ∀ x ∈ energies, Scalar.isFinite x → r.bestEnergy ≤ x) ∧
        -- cooling and reheating leave the best alone, and no move makes it worse
        (∀ c : Chain α, (c.cool config).best = c.best) ∧
        (∀ m n c c', m ≤ n → after (Chain.step problem config) m origin = .ok c →
          after (Chain.step problem config) n origin = .ok c' → c'.best.NoWorse c.best) ∧
        r.accepts + r.rejects = r.iterations ∧ r.energyHistory.size = r.iterations ∧
        r.temperatureHistory.size = r.iterations := by
  refine ⟨run_total, ?_⟩
  intro report h
  rcases exists_after_of_run h with ⟨energy, reason, c, henergy, hafter, rfl⟩
  refine ⟨energy, henergy, ?_⟩
  intro r origin visits energies
  have hstart : origin.visit.Sound problem := henergy
  have htracked : Chain.Tracked problem origin (origin.visits problem config r.iterations) c :=
    Chain.tracked_after hstart hafter
  have hfirst : FirstLeast r.best visits := by
    have hbest : r.best = (origin.visits problem config r.iterations).foldl Visit.better
        origin.visit := htracked.best
    rw [hbest]
    exact (FirstLeast.singleton origin.visit).foldl_better _
  have hsound : r.best.Sound problem := by
    rcases List.mem_cons.mp hfirst.least.mem with heq | hlater
    · rw [heq]
      exact hstart
    · exact htracked.sound _ hlater
  have henergies : energies = visits.map Visit.energy :=
    congrArg (energy :: ·) (htracked.energyHistory : r.energyHistory.toList = _)
  refine ⟨hsound, hfirst, henergies, ?_, ?_, ?_, htracked.counts⟩
  · rw [henergies]
    exact hfirst.least.energy_le
  · intro c
    rcases Chain.cool_frame config c with ⟨temperature, reheats, journal, hcool⟩
    rw [hcool]
    rfl
  · intro m n c c' hmn hc hc'
    exact Chain.best_noWorse_of_le hstart hmn hc hc'

def oneMove : Config Float := { Config.standard with maxIterations := 1 }

/-- One move down the slide is entered at once, and is the best from then on. -/
theorem run_best_firstLeast_slide :
    Walk.slide.Total ∧ oneMove.validate = .ok () ∧
    ∃ report, run Walk.slide oneMove .never [3.0, 4.0] = .ok report ∧
      report.result.best = { state := [3.0], energy := 9.0 } ∧
      FirstLeast report.result.best
        [{ state := [3.0, 4.0], energy := 25.0 }, { state := [3.0], energy := 9.0 }] := by
  have hvalid : oneMove.validate = .ok () := by rfl
  have hpromise := run_best_firstLeast Walk.slide oneMove .never [3.0, 4.0]
  rcases hpromise.1 Walk.slide_total hvalid (List.cons_ne_nil _ _) with ⟨report, hreport⟩
  rcases hpromise.2 report hreport with ⟨energy, henergy, -, hfirst, -⟩
  have hevaluated : (run Walk.slide oneMove .never [3.0, 4.0]).toOption.map
      (fun r => (r.result.iterations, r.result.best)) =
        some (1, { state := [3.0], energy := 9.0 }) := by rfl
  rw [hreport] at hevaluated
  have hone : report.result.iterations = 1 := congrArg Prod.fst (Option.some.inj hevaluated)
  have hbest : report.result.best = { state := [3.0], energy := 9.0 } :=
    congrArg Prod.snd (Option.some.inj hevaluated)
  have hstart : Walk.slide.energy [3.0, 4.0] = .ok 25.0 := by rfl
  cases hstart.symm.trans henergy
  have hvisits : (Chain.start oneMove [3.0, 4.0] 25.0).visits Walk.slide oneMove 1 =
      [{ state := [3.0], energy := 9.0 }] := by rfl
  rw [hone, hvisits] at hfirst
  exact ⟨Walk.slide_total, hvalid, report, hreport, hbest, hfirst⟩

end ThermalSearch.Annealing
