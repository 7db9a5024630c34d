import Mathlib.Algebra.BigOperators.Group.List.Basic
import Mathlib.Algebra.Ring.Nat
import ThermalSearch.Proofs.Tempering.Rounds

/-!
# The shape of an ensemble

An ensemble has a temperature, a replica and a trace for each rung and a tally for each pair of
neighbours, and keeps them through exchanges and adaptations. After each round every trace is longer
by the energy its rung ended the round with, and every replica has made one more sweep. What a replica
counts once in each move (`CountsMoves`), its moves and the energies it evaluated, is therefore told by
the number of rounds, and so is what the watch is told (`poll_after`).
-/

namespace ThermalSearch.Tempering

variable {α : Type} [Scalar α] {problem : Problem α} {config : Config α}

/-! ## Counts -/

/-- A count that starts at zero, goes up by one with every candidate that is judged, and stays with
the rung when states are exchanged. -/
structure CountsMoves (count : Replica α → Nat) : Prop where
  start : ∀ (initial : State α) (energy : α) (g : Generator),
    count (Replica.start initial energy g) = 0
  judged : ∀ (r : Replica α) (accepted : Bool) (candidate : State α) (energy : α) (g : Generator),
    count (r.judged accepted candidate energy g) = count r + 1
  kept : KeptByRung count

/-- Whatever comes of a candidate, its move is counted and its energy was evaluated. -/
theorem Replica.counts_judged (r : Replica α) (accepted : Bool) (candidate : State α) (energy : α)
    (g : Generator) : (r.judged accepted candidate energy g).moves = r.moves + 1 ∧
      (r.judged accepted candidate energy g).evaluations = r.evaluations + 1 := by
  unfold judged enter
  cases accepted with
  | false => exact ⟨rfl, rfl⟩
  | true =>
    simp only [if_true]
    split
    · exact ⟨rfl, rfl⟩
    · exact ⟨rfl, rfl⟩

theorem countsMoves_moves : CountsMoves (α := α) (·.moves) where
  start _ _ _ := rfl
  judged r accepted candidate energy g := (r.counts_judged accepted candidate energy g).1
  kept _ _ _ := rfl

theorem countsMoves_evaluations : CountsMoves (α := α) (·.evaluations) where
  start _ _ _ := rfl
  judged r accepted candidate energy g := (r.counts_judged accepted candidate energy g).2
  kept _ _ _ := rfl

namespace CountsMoves

variable {count : Replica α → Nat}

theorem of_move (hcount : CountsMoves count) {temperature : α} {r r' : Replica α}
    (h : r.move problem temperature = .ok r') : count r' = count r + 1 := by
  obtain ⟨candidate, g, energy, accepted, g', -, -, -, rfl⟩ := Replica.move_eq_ok.mp h
  exact hcount.judged r accepted candidate energy g'

theorem of_sweep (hcount : CountsMoves count) {temperature : α} {n : Nat} {r r' : Replica α}
    (h : r.sweep problem temperature n = .ok r') : count r' = count r + n := by
  rw [Replica.sweep_eq_after] at h
  exact count_after hcount.of_move h

/-- With a temperature for each of them, all replicas move. -/
theorem of_localPhase (hcount : CountsMoves count) {sweeps : Nat} {temperatures : List α}
    {replicas after : List (Replica α)} (hlength : temperatures.length = replicas.length)
    (h : localPhase problem sweeps temperatures replicas = .ok after) :
    after.map count = replicas.map (count · + sweeps) := by
  induction temperatures generalizing replicas after with
  | nil =>
    cases List.length_eq_zero_iff.mp hlength.symm
    unfold localPhase at h
    cases h
    rfl
  | cons temperature temperatures ih =>
    cases replicas with
    | nil => cases hlength
    | cons r replicas =>
      obtain ⟨r', rest, hr, hrest, rfl⟩ := localPhase_cons_eq_ok.mp h
      rw [List.map_cons, List.map_cons, hcount.of_sweep hr, ih (Nat.succ.inj hlength) hrest]

theorem of_startReplicas (hcount : CountsMoves count) (initial : State α) (energy : α) (n : Nat)
    (g : Generator) : (startReplicas initial energy n g).1.map count = List.replicate n 0 := by
  induction n generalizing g with
  | zero => rfl
  | succ n ih =>
    rw [startReplicas, List.replicate_succ, List.map_cons, hcount.start, ih g.split.2]

end CountsMoves

/-! ## Exchanges -/

theorem length_tallies_exchangePairs (temperatures : List α) (replicas : List (Replica α))
    (tallies : List Tally) (g : Generator) :
    (exchangePairs temperatures replicas tallies g).tallies.length = tallies.length := by
  fun_induction exchangePairs temperatures replicas tallies g with
  | case1 _ _ _ _ _ _ _ tallies _ _ _ _ _ _ _ rest ih =>
    rw [List.length_cons, List.length_append, ih, ← List.length_append, List.take_append_drop,
      List.length_cons]
  | case2 => rfl

theorem length_tallies_exchangePhase (round : Nat) (temperatures : List α)
    (replicas : List (Replica α)) (tallies : List Tally) (g : Generator) :
    (exchangePhase round temperatures replicas tallies g).tallies.length = tallies.length := by
  unfold exchangePhase
  split
  · exact length_tallies_exchangePairs _ _ _ _
  · rw [List.length_append, length_tallies_exchangePairs, ← List.length_append,
      List.take_append_drop]

theorem length_exchangePhase (round : Nat) (temperatures : List α)
    (replicas : List (Replica α)) (tallies : List Tally) (g : Generator) :
    (exchangePhase round temperatures replicas tallies g).replicas.length = replicas.length := by
  have hbests := congrArg List.length
    (exchangePhase_map_own keptByRung_best round temperatures replicas tallies g)
  rw [List.length_map, List.length_map] at hbests
  exact hbests

/-! ## Rounds -/

/-- What a run tells the watch before round `k`: every replica has made `k` sweeps, each move of
which evaluated an energy, and before them the initial one was evaluated. -/
def pollNumber (config : Config α) (k : Nat) : Poll :=
  { index := k, evaluations := 1 + config.effectiveReplicas * (k * config.sweepsPerSwap) }

/-- A view of what a list was zipped into that forgets the other list. -/
theorem map_zipWith_of_forget {β γ δ τ : Type} {f : β → γ → δ} {view : δ → τ} {view' : β → τ}
    {l : List β} {l' : List γ} (hlength : l.length = l'.length)
    (h : ∀ b ∈ l, ∀ c, view (f b c) = view' b) : (List.zipWith f l l').map view = l.map view' := by
  induction l generalizing l' with
  | nil => rfl
  | cons b l ih =>
    cases l' with
    | nil => cases hlength
    | cons c l' =>
      rw [List.zipWith_cons_cons, List.map_cons, List.map_cons, h b List.mem_cons_self c,
        ih (Nat.succ.inj hlength) fun b hb => h b (List.mem_cons_of_mem _ hb)]

namespace Ensemble

/-- All parts of the ensemble fit the number of rungs and the number of rounds. -/
structure Shaped (config : Config α) (e : Ensemble α) : Prop where
  temperatures : e.temperatures.length = config.effectiveReplicas
  tallies : e.tallies.length = config.effectiveReplicas - 1
  traces : e.traces.map Array.size = List.replicate config.effectiveReplicas e.rounds
  counts : ∀ {count : Replica α → Nat}, CountsMoves count → e.replicas.map count =
    List.replicate config.effectiveReplicas (e.rounds * config.sweepsPerSwap)

namespace Shaped

variable {e e' : Ensemble α}

theorem length_traces (h : Shaped config e) : e.traces.length = config.effectiveReplicas := by
  have hlength := congrArg List.length h.traces
  rw [List.length_map, List.length_replicate] at hlength
  exact hlength

theorem moves (h : Shaped config e) : e.replicas.map (·.moves) =
    List.replicate config.effectiveReplicas (e.rounds * config.sweepsPerSwap) :=
  h.counts countsMoves_moves

theorem length_replicas (h : Shaped config e) :
    e.replicas.length = config.effectiveReplicas := by
  have hlength := congrArg List.length h.moves
  rw [List.length_map, List.length_replicate] at hlength
  exact hlength

theorem size_of_mem (h : Shaped config e) {trace : Array α} (htrace : trace ∈ e.traces) :
    trace.size = e.rounds := by
  have hsize : trace.size ∈ e.traces.map Array.size := List.mem_map_of_mem htrace
  rw [h.traces] at hsize
  exact List.eq_of_mem_replicate hsize

theorem start (config : Config α) (initial : State α) (energy : α) :
    Shaped config (start config initial energy) where
  temperatures := Ladder.length_geometric _ _ _
  tallies := List.length_replicate
  traces := by
    show (List.replicate config.effectiveReplicas (#[] : Array α)).map Array.size = _
    rw [List.map_replicate]
    rfl
  counts := by
    intro count hcount
    show _ = List.replicate config.effectiveReplicas (0 * config.sweepsPerSwap)
    rw [Nat.zero_mul]
    exact hcount.of_startReplicas initial energy _ _

/-- The local phase of a round moves all replicas. -/
theorem counts_moved (h : Shaped config e) {count : Replica α → Nat} (hcount : CountsMoves count)
    {replicas : List (Replica α)} (hlocal : localPhase problem config.sweepsPerSwap e.temperatures
      e.replicas = .ok replicas) :
    replicas.map count =
      List.replicate config.effectiveReplicas ((e.rounds + 1) * config.sweepsPerSwap) := by
  have hlength : e.temperatures.length = e.replicas.length := by
    rw [h.temperatures, h.length_replicas]
  have hadded : e.replicas.map (count · + config.sweepsPerSwap) =
      (e.replicas.map count).map (· + config.sweepsPerSwap) := by
    rw [List.map_map]
    rfl
  rw [hcount.of_localPhase hlength hlocal, hadded, h.counts hcount, List.map_replicate,
    ← Nat.succ_mul]

theorem length_moved (h : Shaped config e) {replicas : List (Replica α)}
    (hlocal : localPhase problem config.sweepsPerSwap e.temperatures e.replicas = .ok replicas) :
    replicas.length = config.effectiveReplicas := by
  have hmoved := congrArg List.length (h.counts_moved countsMoves_moves hlocal)
  rw [List.length_map, List.length_replicate] at hmoved
  exact hmoved

/-- There are as many traces as replicas, and each is longer by one energy. -/
theorem map_traces_exchangeStates {τ : Type} {view view' : Array α → τ} (h : Shaped config e)
    {replicas : List (Replica α)} (hlength : replicas.length = config.effectiveReplicas)
    (hview : ∀ trace ∈ e.traces, ∀ energy, view (trace.push energy) = view' trace) :
    { e with replicas := replicas }.trackBest.exchangeStates.traces.map view =
      e.traces.map view' := by
  have hzip : e.traces.length = (exchangePhase e.rounds e.temperatures replicas e.tallies
      e.generator).replicas.length := by
    rw [length_exchangePhase, hlength, h.length_traces]
  rw [trackBest_eq]
  exact map_zipWith_of_forget hzip fun trace htrace r => hview trace htrace r.energy

/-- Each replica has made a sweep more than there were rounds, and the round is concluded. -/
theorem exchangeStates (h : Shaped config e) {replicas : List (Replica α)}
    (hlocal : localPhase problem config.sweepsPerSwap e.temperatures e.replicas = .ok replicas) :
    Shaped config { e with replicas := replicas }.trackBest.exchangeStates := by
  have hsizes : { e with replicas := replicas }.trackBest.exchangeStates.traces.map Array.size =
      e.traces.map (·.size + 1) :=
    h.map_traces_exchangeStates (h.length_moved hlocal) fun trace _ energy =>
      Array.size_push energy
  rw [trackBest_eq] at hsizes ⊢
  constructor
  case temperatures => exact h.temperatures
  case tallies =>
    rw [← h.tallies]
    exact length_tallies_exchangePhase _ _ _ _ _
  case traces =>
    have hcounts : e.traces.map (·.size + 1) = (e.traces.map Array.size).map (· + 1) := by
      rw [List.map_map]
      rfl
    rw [hsizes, hcounts, h.traces, List.map_replicate]
    rfl
  case counts =>
    intro count hcount
    exact (exchangePhase_map_own hcount.kept _ _ _ _ _).trans (h.counts_moved hcount hlocal)

theorem adaptLadder (h : Shaped config e) : Shaped config e.adaptLadder where
  temperatures := (Ladder.length_adapt _ _).trans h.temperatures
  tallies := (List.length_map _).trans h.tallies
  traces := h.traces
  counts := h.counts

theorem round (h : Shaped config e) (hround : e.round problem config = .ok e') :
    Shaped config e' := by
  obtain ⟨replicas, hlocal, rfl⟩ := round_eq_ok.mp hround
  have hexchanged := h.exchangeStates hlocal
  unfold conclude
  dsimp only
  split
  · exact hexchanged.adaptLadder
  · exact hexchanged

end Shaped

theorem shaped_after {initial : State α} {energy : α} {n : Nat} {e : Ensemble α}
    (h : after (round problem config) n (start config initial energy) = .ok e) :
    Shaped config e :=
  after_induction (Shaped config) (fun _ _ hshaped hround => hshaped.round hround)
    (Shaped.start config initial energy) h

/-- The energies that were evaluated are the first one and those of the replicas' moves. -/
theorem Shaped.evaluations {e : Ensemble α} (h : Shaped config e) : e.evaluations =
    1 + config.effectiveReplicas * (e.rounds * config.sweepsPerSwap) := by
  show 1 + (e.replicas.map (·.evaluations)).sum = _
  rw [h.counts countsMoves_evaluations, List.sum_replicate_nat]

theorem poll_after {initial : State α} {energy : α} {n : Nat} {e : Ensemble α}
    (h : after (round problem config) n (start config initial energy) = .ok e) :
    e.poll = pollNumber config n := by
  have hrounds : e.rounds = 0 + n := rounds_after h
  unfold poll
  rw [(shaped_after h).evaluations, hrounds, Nat.zero_add]
  rfl

end Ensemble

end ThermalSearch.Tempering
