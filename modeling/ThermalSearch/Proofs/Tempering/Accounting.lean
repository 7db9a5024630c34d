import ThermalSearch.Proofs.Tempering.Anytime

/-!
# The books of a tempering run

A pair of neighbours is offered an exchange in every other round: the pairs at an even place on the
ladder in even rounds, the others in odd rounds (`offers`). Each pair keeps two counts of its offers,
one since the start of the run and one since the ladder was last adapted, and the difference of the
two is what it had been offered by then (`Accounted.offered`). As there are ten rounds between two
adaptations, every pair has had five offers when the next one comes, whichever its parity.

The books as a whole are the invariant `Accounted`, and `run_accounting` reads off them what a result
and the ensemble behind it have to do with the number of rounds.
-/

namespace ThermalSearch.Tempering

/-- After how many rounds the ladder was adapted, if that is what the event reports. -/
def adaptedAfter? {α : Type} : Event α → Option Nat
  | .ladderAdapted rounds _ => some rounds
  | _ => none

/-- How many of so many rounds offer an exchange to the pair at place `i`. -/
def offers (i rounds : Nat) : Nat := if i % 2 = 0 then (rounds + 1) / 2 else rounds / 2

theorem offers_succ (i rounds : Nat) :
    offers i (rounds + 1) = offers i rounds + if i % 2 = rounds % 2 then 1 else 0 := by
  unfold offers
  by_cases heven : i % 2 = 0
  · rw [if_pos heven, if_pos heven]
    split <;> omega
  · rw [if_neg heven, if_neg heven]
    split <;> omega

/-- Ten rounds make five offers to every pair, wherever they begin. -/
theorem offers_add_interval (i rounds : Nat) :
    offers i (rounds + Ladder.adaptInterval) = offers i rounds + 5 := by
  have hten : Ladder.adaptInterval = 10 := rfl
  unfold offers
  split <;> omega

theorem offers_intervals (i k : Nat) : offers i (Ladder.adaptInterval * k) = 5 * k := by
  have hten : Ladder.adaptInterval = 10 := rfl
  rw [hten]
  unfold offers
  split <;> omega

variable {α : Type} [Scalar α] {problem : Problem α} {config : Config α}

/-! ## Tallies -/

@[simp] theorem tallies_exchangePairs_nil (temperatures : List α) (replicas : List (Replica α))
    (g : Generator) : (exchangePairs temperatures replicas [] g).tallies = [] :=
  List.eq_nil_of_length_eq_zero (length_tallies_exchangePairs temperatures replicas [] g)

/-- Of the pairs that are paired off from the first rung on, those at even places are offered an
exchange. -/
theorem tallies_exchangePairs {temperatures : List α} {replicas : List (Replica α)}
    {tallies : List Tally} (g : Generator) (htemperatures : temperatures.length = replicas.length)
    (htallies : tallies.length = replicas.length - 1) (i : Nat) :
    ∃ accepted, (exchangePairs temperatures replicas tallies g).tallies[i]? =
      tallies[i]?.map fun t => if i % 2 = 0 then t.record accepted else t := by
  fun_induction exchangePairs temperatures replicas tallies g generalizing i with
  | case1 cold hot temperatures a b replicas tally tallies g accepted g' hdecide a' b' hpair rest
      ih =>
    rcases i with _ | _ | i
    · exact ⟨accepted, rfl⟩
    · refine ⟨accepted, ?_⟩
      cases tallies with
      | nil => simp [rest]
      | cons across tallies => simp
    · simp only [List.length_cons] at htemperatures htallies
      obtain ⟨accepted', hrest⟩ := ih (by omega) (by rw [List.length_drop]; omega) i
      refine ⟨accepted', ?_⟩
      have hparity : (i + 2) % 2 = i % 2 := by omega
      rw [hparity]
      -- beyond the pair across, the rest of the round decides
      cases tallies with
      | nil => simp [rest]
      | cons across tallies => simpa [rest] using hrest
  | case2 temperatures replicas tallies g hfew =>
    -- a pair needs two rungs, so there is none
    refine ⟨false, ?_⟩
    have hnone : tallies = [] := by
      cases tallies with
      | nil => rfl
      | cons tally tallies =>
        rw [List.length_cons] at htallies
        rcases replicas with _ | ⟨a, _ | ⟨b, replicas⟩⟩
        · simp at htallies
        · simp at htallies
        · rcases temperatures with _ | ⟨cold, _ | ⟨hot, temperatures⟩⟩
          · simp at htemperatures
          · simp at htemperatures
          · exact absurd rfl (hfew cold hot temperatures a b replicas tally tallies rfl rfl)
    simp [hnone]

/-- A round offers an exchange to the pairs of its parity. -/
theorem tallies_exchangePhase {temperatures : List α} {replicas : List (Replica α)}
    {tallies : List Tally} (round : Nat) (g : Generator)
    (htemperatures : temperatures.length = replicas.length)
    (htallies : tallies.length = replicas.length - 1) (i : Nat) :
    ∃ accepted, (exchangePhase round temperatures replicas tallies g).tallies[i]? =
      tallies[i]?.map fun t => if i % 2 = round % 2 then t.record accepted else t := by
  unfold exchangePhase
  by_cases heven : round % 2 = 0
  · rw [if_pos heven, heven]
    exact tallies_exchangePairs g htemperatures htallies i
  · have hodd : round % 2 = 1 := by omega
    rw [if_neg heven, hodd]
    cases tallies with
    | nil => exact ⟨false, by simp⟩
    | cons first tallies =>
      cases i with
      | zero => exact ⟨false, rfl⟩
      | succ i =>
        have hrungs : (temperatures.drop 1).length = (replicas.drop 1).length := by
          rw [List.length_drop, List.length_drop, htemperatures]
        have hpairs : tallies.length = (replicas.drop 1).length - 1 := by
          rw [List.length_cons] at htallies
          rw [List.length_drop]
          omega
        obtain ⟨accepted, hrest⟩ := tallies_exchangePairs g hrungs hpairs i
        refine ⟨accepted, ?_⟩
        have hparity : (i + 1) % 2 = 1 ↔ i % 2 = 0 := by omega
        simpa [hparity] using hrest

/-- The tally of the pair at place `i` after so many rounds, when the ladder was last adapted after
round `last`: all offers were counted, those since then also as recent, and none was accepted twice. -/
structure Tally.Shows (t : Tally) (i rounds last : Nat) : Prop where
  attempts : t.attempts = offers i rounds
  accepts : t.accepts ≤ t.attempts
  recent : t.recentAttempts + offers i last = offers i rounds

namespace Tally.Shows

variable {t : Tally} {i rounds last : Nat}

theorem round (h : t.Shows i rounds last) (accepted : Bool) :
    (if i % 2 = rounds % 2 then t.record accepted else t).Shows i (rounds + 1) last := by
  obtain ⟨hattempts, haccepts, hrecent⟩ := h
  by_cases hoffered : i % 2 = rounds % 2
  · have hoffers : offers i (rounds + 1) = offers i rounds + 1 := by
      rw [offers_succ, if_pos hoffered]
    have hhit : (if accepted then 1 else 0) ≤ 1 := by
      split <;> omega
    rw [if_pos hoffered]
    refine ⟨?_, ?_, ?_⟩
    · rw [hoffers, ← hattempts]
      rfl
    · exact Nat.add_le_add haccepts hhit
    · rw [hoffers, ← hrecent, Nat.add_right_comm]
      rfl
  · have hoffers : offers i (rounds + 1) = offers i rounds := by
      rw [offers_succ, if_neg hoffered, Nat.add_zero]
    rw [if_neg hoffered]
    exact ⟨by rw [hattempts, hoffers], haccepts, by rw [hrecent, hoffers]⟩

/-- With ten rounds since the last adaptation, the recent offers are five. -/
theorem recent_of_interval (h : t.Shows i rounds last)
    (hsince : last + Ladder.adaptInterval = rounds) : t.recentAttempts = 5 := by
  have hrecent := h.recent
  rw [← hsince, offers_add_interval] at hrecent
  omega

theorem forgetRecent (h : t.Shows i rounds last) : t.forgetRecent.Shows i rounds rounds :=
  ⟨h.attempts, h.accepts, Nat.zero_add _⟩

end Tally.Shows

/-! ## When the ladder is adapted -/

namespace Config

/-- Whether the ladder is adapted now and then. -/
def Adapts (config : Config α) : Prop :=
  config.spacing = .adaptive ∧ 2 < config.effectiveReplicas

instance (config : Config α) : Decidable config.Adapts := inferInstanceAs (Decidable (_ ∧ _))

/-- After how many of so many rounds the ladder was adapted for the last time; zero, if never. -/
def lastAdaptation (config : Config α) (rounds : Nat) : Nat :=
  if config.Adapts then rounds - rounds % Ladder.adaptInterval else 0

omit [Scalar α] in
theorem lastAdaptation_of_adapts {rounds : Nat} (hadapts : config.Adapts)
    (htenth : (rounds + 1) % Ladder.adaptInterval = 0) :
    config.lastAdaptation (rounds + 1) = rounds + 1 ∧
      config.lastAdaptation rounds + Ladder.adaptInterval = rounds + 1 := by
  unfold Ladder.adaptInterval at htenth
  rw [lastAdaptation, lastAdaptation, if_pos hadapts, if_pos hadapts]
  unfold Ladder.adaptInterval
  omega

omit [Scalar α] in
theorem lastAdaptation_of_not_adapts {rounds : Nat}
    (h : ¬ (config.Adapts ∧ (rounds + 1) % Ladder.adaptInterval = 0)) :
    config.lastAdaptation (rounds + 1) = config.lastAdaptation rounds := by
  unfold lastAdaptation
  by_cases hadapts : config.Adapts
  · have hbetween : ¬ (rounds + 1) % Ladder.adaptInterval = 0 := fun htenth => h ⟨hadapts, htenth⟩
    rw [if_pos hadapts, if_pos hadapts]
    unfold Ladder.adaptInterval at hbetween ⊢
    omega
  · rw [if_neg hadapts, if_neg hadapts]

end Config

namespace Ensemble

omit [Scalar α] in
theorem adaptsNow_iff {e : Ensemble α} : e.adaptsNow config = true ↔
    config.Adapts ∧ e.rounds % Ladder.adaptInterval = 0 := by
  simp [adaptsNow, Config.Adapts]

/-! ## Rounds -/

/-- The next round up to its exchanges, when it remains to be seen whether the ladder is adapted. -/
def exchanged (problem : Problem α) (config : Config α) (e : Ensemble α) :
    Except Fault (Ensemble α) := do
  let replicas ← localPhase problem config.sweepsPerSwap e.temperatures e.replicas
  return { e with replicas := replicas }.trackBest.exchangeStates

/-- The ensemble whose ladder the next round adapts, as it is just before; none, if the round leaves
the ladder alone. -/
def adaptedNext (problem : Problem α) (config : Config α) (e : Ensemble α) : List (Ensemble α) :=
  match e.exchanged problem config with
  | .ok d => if d.adaptsNow config then [d] else []
  | .error _ => []

/-- The ensembles whose ladders are adapted in the next `n` rounds, each as it was just before. -/
def adaptations (problem : Problem α) (config : Config α) (n : Nat) (e : Ensemble α) :
    List (Ensemble α) :=
  notes (round problem config) (fun e _ => e.adaptedNext problem config) n e

variable {e e' d : Ensemble α}

theorem round_eq_exchanged (e : Ensemble α) : e.round problem config =
    (e.exchanged problem config).map fun d =>
      if d.adaptsNow config then d.adaptLadder else d := by
  unfold round exchanged
  cases localPhase problem config.sweepsPerSwap e.temperatures e.replicas <;> rfl

/-- What a round does to the books before the ladder may be adapted. -/
structure Exchanged (config : Config α) (e d : Ensemble α) : Prop where
  shaped : Shaped config d
  rounds : d.rounds = e.rounds + 1
  tallies : ∀ i, ∃ accepted, d.tallies[i]? =
    e.tallies[i]?.map fun t => if i % 2 = e.rounds % 2 then t.record accepted else t
  traces : d.traces.map Array.back? = d.replicas.map fun r => some r.energy
  journal : d.journal = e.journal

theorem exchanged_of_shaped (hshaped : Shaped config e)
    (h : e.exchanged problem config = .ok d) : Exchanged config e d := by
  obtain ⟨replicas, hlocal, hd⟩ := bind_eq_ok_iff.mp h
  cases hd
  have hmoved : replicas.length = config.effectiveReplicas := hshaped.length_moved hlocal
  have hshaped' := hshaped.exchangeStates hlocal
  constructor
  case shaped => exact hshaped'
  case rounds =>
    rw [trackBest_eq]
    rfl
  case tallies =>
    intro i
    rw [trackBest_eq]
    exact tallies_exchangePhase e.rounds e.generator (by rw [hshaped.temperatures, hmoved])
      (by rw [hshaped.tallies, hmoved]) i
  case traces =>
    have hzip : { e with replicas := replicas }.trackBest.exchangeStates.replicas.length =
        e.traces.length := by
      rw [hshaped'.length_replicas, hshaped.length_traces]
    rw [trackBest_eq] at hzip ⊢
    unfold exchangeStates
    dsimp only
    rw [List.zipWith_comm]
    exact map_zipWith_of_forget hzip fun r _ trace => Array.back?_push
  case journal =>
    rw [trackBest_eq]
    rfl

theorem Exchanged.shows {last : Nat} (h : Exchanged config e d)
    (htallies : ∀ (i : Nat) (t : Tally), e.tallies[i]? = some t → t.Shows i e.rounds last)
    (i : Nat) (t : Tally) (ht : d.tallies[i]? = some t) : t.Shows i (e.rounds + 1) last := by
  obtain ⟨accepted, htally⟩ := h.tallies i
  rw [htally] at ht
  obtain ⟨before, hbefore, rfl⟩ := Option.map_eq_some_iff.mp ht
  exact (htallies i before hbefore).round accepted

/-! ## The books -/

/-- The books of an ensemble that was started with these settings and whose ladder was adapted each
time from one of the ensembles `adapted`. -/
structure Accounted (config : Config α) (adapted : List (Ensemble α)) (e : Ensemble α) :
    Prop where
  shaped : Shaped config e
  tallies : ∀ (i : Nat) (t : Tally), e.tallies[i]? = some t →
    t.Shows i e.rounds (config.lastAdaptation e.rounds)
  traces : 0 < e.rounds → e.traces.map Array.back? = e.replicas.map fun r => some r.energy
  count : Ladder.adaptInterval * adapted.length = config.lastAdaptation e.rounds
  windows : ∀ (j : Nat) (d : Ensemble α), adapted[j]? = some d →
    d.rounds = Ladder.adaptInterval * (j + 1) ∧
      ∀ t ∈ d.tallies, t.attempts = 5 * (j + 1) ∧ t.recentAttempts = 5
  journal : e.journal.toList.filterMap adaptedAfter? = adapted.map Ensemble.rounds

theorem accounted_start (config : Config α) (initial : State α) (energy : α) :
    Accounted config [] (start config initial energy) where
  shaped := Shaped.start config initial energy
  tallies := by
    intro i t ht
    have hnew : t = {} := List.eq_of_mem_replicate (List.mem_of_getElem? ht)
    have hnone : offers i 0 = 0 := by
      unfold offers
      split <;> rfl
    have hlast : config.lastAdaptation 0 = 0 := by
      unfold Config.lastAdaptation
      split <;> rfl
    rw [hnew]
    show Tally.Shows {} i 0 (config.lastAdaptation 0)
    rw [hlast]
    exact ⟨hnone.symm, Nat.le_refl 0, Nat.zero_add _⟩
  traces := fun hpos => absurd hpos (Nat.lt_irrefl 0)
  count := by
    show 0 = config.lastAdaptation 0
    unfold Config.lastAdaptation
    split <;> rfl
  windows := by
    intro j d hd
    cases hd
  journal := by
    show (opening config).toList.filterMap adaptedAfter? = []
    unfold opening
    dsimp only
    split <;> rfl

/-- After a round without an adaptation. -/
theorem Accounted.wait {adapted : List (Ensemble α)} (h : Accounted config adapted e)
    (hexchanged : Exchanged config e d)
    (hshows : ∀ (i : Nat) (t : Tally), d.tallies[i]? = some t →
      t.Shows i (e.rounds + 1) (config.lastAdaptation e.rounds))
    (hnow : ¬ d.adaptsNow config = true) : Accounted config adapted d := by
  have hlast : config.lastAdaptation (e.rounds + 1) = config.lastAdaptation e.rounds := by
    refine Config.lastAdaptation_of_not_adapts ?_
    rw [← hexchanged.rounds, ← adaptsNow_iff]
    exact hnow
  constructor
  case shaped => exact hexchanged.shaped
  case tallies =>
    rw [hexchanged.rounds, hlast]
    exact hshows
  case traces => exact fun _ => hexchanged.traces
  case count => rw [hexchanged.rounds, hlast, h.count]
  case windows => exact h.windows
  case journal => rw [hexchanged.journal, h.journal]

/-- After a round with an adaptation. Since the last one there were ten rounds, so five offers to
every pair. -/
theorem Accounted.adapt {adapted : List (Ensemble α)} (h : Accounted config adapted e)
    (hexchanged : Exchanged config e d)
    (hshows : ∀ (i : Nat) (t : Tally), d.tallies[i]? = some t →
      t.Shows i (e.rounds + 1) (config.lastAdaptation e.rounds))
    (hnow : d.adaptsNow config = true) : Accounted config (adapted ++ [d]) d.adaptLadder := by
  obtain ⟨hadapts, htenth⟩ := adaptsNow_iff.mp hnow
  rw [hexchanged.rounds] at htenth
  obtain ⟨hlast, hsince⟩ := Config.lastAdaptation_of_adapts hadapts htenth
  have hrounds : Ladder.adaptInterval * (adapted.length + 1) = e.rounds + 1 := by
    rw [Nat.mul_succ, h.count, hsince]
  constructor
  case shaped => exact hexchanged.shaped.adaptLadder
  case tallies =>
    intro i t ht
    show t.Shows i d.rounds (config.lastAdaptation d.rounds)
    have hmap : d.tallies[i]?.map Tally.forgetRecent = some t := by
      rw [← List.getElem?_map]
      exact ht
    obtain ⟨before, hbefore, rfl⟩ := Option.map_eq_some_iff.mp hmap
    rw [hexchanged.rounds, hlast]
    exact (hshows i before hbefore).forgetRecent
  case traces => exact fun _ => hexchanged.traces
  case count =>
    show _ = config.lastAdaptation d.rounds
    rw [hexchanged.rounds, hlast, List.length_append, List.length_singleton, hrounds]
  case windows =>
    intro j c hc
    rcases Nat.lt_or_ge j adapted.length with hearlier | hlater
    · rw [List.getElem?_append_left hearlier] at hc
      exact h.windows j c hc
    · rw [List.getElem?_append_right hlater] at hc
      have hposition : j - adapted.length < [d].length := (List.getElem?_eq_some_iff.mp hc).1
      have hj : j = adapted.length := by
        rw [List.length_singleton] at hposition
        omega
      subst hj
      rw [Nat.sub_self] at hc
      cases hc
      rw [hexchanged.rounds]
      refine ⟨hrounds.symm, ?_⟩
      intro t ht
      obtain ⟨i, hi⟩ := List.mem_iff_getElem?.mp ht
      have hshown := hshows i t hi
      refine ⟨?_, hshown.recent_of_interval hsince⟩
      rw [hshown.attempts, ← hrounds, offers_intervals]
  case journal =>
    show (d.journal.push _).toList.filterMap adaptedAfter? = _
    rw [Array.toList_push, List.filterMap_append, hexchanged.journal, h.journal, List.map_append]
    rfl

theorem Accounted.round {adapted : List (Ensemble α)} (h : Accounted config adapted e)
    (hround : e.round problem config = .ok e') :
    Accounted config (adapted ++ e.adaptedNext problem config) e' := by
  rw [round_eq_exchanged] at hround
  unfold adaptedNext
  cases hd : e.exchanged problem config with
  | error fault =>
    rw [hd] at hround
    cases hround
  | ok d =>
    rw [hd] at hround
    have he' : (if d.adaptsNow config then d.adaptLadder else d) = e' := Except.ok.inj hround
    have hexchanged : Exchanged config e d := exchanged_of_shaped h.shaped hd
    have hshows : ∀ (i : Nat) (t : Tally), d.tallies[i]? = some t →
        t.Shows i (e.rounds + 1) (config.lastAdaptation e.rounds) := hexchanged.shows h.tallies
    dsimp only
    by_cases hnow : d.adaptsNow config = true
    · rw [if_pos hnow] at he' ⊢
      rw [← he']
      exact h.adapt hexchanged hshows hnow
    · rw [if_neg hnow] at he' ⊢
      rw [← he', List.append_nil]
      exact h.wait hexchanged hshows hnow

theorem accounted_after {initial : State α} {energy : α} {n : Nat}
    (h : after (Ensemble.round problem config) n (start config initial energy) = .ok e) :
    Accounted config ((start config initial energy).adaptations problem config n) e :=
  notes_induction (Accounted config) (fun _ _ _ hbooks hround => hbooks.round hround)
    (accounted_start config initial energy) h

/-- Where the ladder is adapted now and then, it is so after every tenth round. -/
theorem Accounted.length_of_adapts {adapted : List (Ensemble α)} (h : Accounted config adapted e)
    (hadapts : config.Adapts) : adapted.length = e.rounds / Ladder.adaptInterval := by
  have hcount := h.count
  unfold Config.lastAdaptation Ladder.adaptInterval at hcount
  rw [if_pos hadapts] at hcount
  unfold Ladder.adaptInterval
  omega

theorem Accounted.eq_nil_of_not_adapts {adapted : List (Ensemble α)}
    (h : Accounted config adapted e) (hadapts : ¬ config.Adapts) : adapted = [] := by
  have hcount := h.count
  unfold Config.lastAdaptation Ladder.adaptInterval at hcount
  rw [if_neg hadapts] at hcount
  exact List.eq_nil_of_length_eq_zero (by omega)

/-- What the journal reports of the adaptations. -/
theorem Accounted.journal_of_adapts {adapted : List (Ensemble α)}
    (h : Accounted config adapted e) (hadapts : config.Adapts) :
    e.journal.toList.filterMap adaptedAfter? =
      (List.range (e.rounds / Ladder.adaptInterval)).map fun j => Ladder.adaptInterval * (j + 1) := by
  rw [h.journal, ← h.length_of_adapts hadapts]
  refine List.ext_getElem (by simp) ?_
  intro j hj hj'
  rw [List.length_map] at hj
  rw [List.getElem_map, List.getElem_map, List.getElem_range]
  exact (h.windows j adapted[j] (List.getElem?_eq_getElem hj)).1

end Ensemble

/-! ## Results -/

/-- A run returns after all its rounds, unless it is cancelled before. All that it returns has the
size that the number of replicas and the number of rounds give it, each pair was offered an exchange
in every other round, each replica made all its moves, and an adaptive ladder with an inner rung was
adapted after every tenth round, when each pair had had five offers since the last time. -/
theorem run_accounting (problem : Problem α) (config : Config α) (watch : Watch)
    (initial : State α) :
    (problem.Total → config.validate = .ok () → initial ≠ [] → config.reserve = .ok () →
      ∃ report, run problem config watch initial = .ok report) ∧
    ∀ report, run problem config watch initial = .ok report →
      ∃ energy e, problem.energy initial = .ok energy ∧
        let r := report.result
        let n := max config.replicas 2
        let origin := Ensemble.start config initial energy
        let adapted := origin.adaptations problem config r.rounds
        after (Ensemble.round problem config) r.rounds origin = .ok e ∧
        report = e.report r.cancelled ∧
        (r.rounds ≤ config.totalSwaps ∧ (r.rounds = config.totalSwaps ↔ r.cancelled = false)) ∧
        (r.energyTraces.length = n ∧ (∀ trace ∈ r.energyTraces, trace.size = r.rounds) ∧
          (0 < r.rounds → r.energyTraces.map Array.back? = r.replicaEnergies.map some)) ∧
        (r.replicaEnergies.length = n ∧ r.temperatures.length = n ∧ r.moveRates.length = n ∧
          r.swapRates.length = n - 1 ∧ e.tallies.length = n - 1) ∧
        (∀ (i : Nat) (t : Tally), e.tallies[i]? = some t →
          t.attempts = (if i % 2 = 0 then (r.rounds + 1) / 2 else r.rounds / 2) ∧
          t.accepts ≤ t.attempts ∧
          r.swapRates[i]? = some (if t.attempts = 0 then 0.0
            else Scalar.ofNat t.accepts / Scalar.ofNat t.attempts)) ∧
        (e.replicas.map (·.moves) = List.replicate n (r.rounds * config.sweepsPerSwap) ∧
          report.evaluations = 1 + n * r.rounds * config.sweepsPerSwap) ∧
        (config.spacing = .adaptive ∧ 2 < n →
          adapted.length = r.rounds / 10 ∧
          report.journal.filterMap adaptedAfter? =
            (List.range (r.rounds / 10)).map (fun j => 10 * (j + 1)) ∧
          ∀ (j : Nat) (d : Ensemble α), adapted[j]? = some d → d.rounds = 10 * (j + 1) ∧
            ∀ t ∈ d.tallies, t.attempts = 5 * (j + 1) ∧ t.recentAttempts = 5) ∧
        (¬ (config.spacing = .adaptive ∧ 2 < n) →
          adapted = [] ∧ report.journal.filterMap adaptedAfter? = []) := by
  refine ⟨fun htotal hvalid hstate hroom => run_total htotal hvalid hstate hroom, ?_⟩
  intro report hrun
  obtain ⟨-, -, -, energy, henergy, cancelled, e, hadvance, rfl⟩ := run_eq_ok.mp hrun
  rw [Ensemble.advance_eq_runUntil] at hadvance
  obtain ⟨rounds, hle, hafter, -, hend⟩ := exit_of_runUntil hadvance
  have hrounds : e.rounds = rounds := by
    rw [Ensemble.rounds_after hafter]
    exact Nat.zero_add rounds
  subst hrounds
  have hbooks := Ensemble.accounted_after hafter
  have hshaped : Ensemble.Shaped config e := hbooks.shaped
  have hjournal : (e.report cancelled).journal.filterMap adaptedAfter? =
      e.journal.toList.filterMap adaptedAfter? := by
    show (e.journal.toList ++ [_]).filterMap adaptedAfter? = _
    rw [List.filterMap_append]
    exact List.append_nil _
  have hevaluations : e.evaluations =
      1 + config.effectiveReplicas * e.rounds * config.sweepsPerSwap := by
    rw [hshaped.evaluations, Nat.mul_assoc]
  refine ⟨energy, e, henergy, hafter, rfl, ⟨hle, ?_⟩, ⟨hshaped.length_traces, ?_, ?_⟩,
    ⟨?_, hshaped.temperatures, ?_, ?_, hshaped.tallies⟩, ?_, ⟨hshaped.moves, hevaluations⟩, ?_, ?_⟩
  · -- only the last round is followed by no poll
    rcases hend with ⟨hspent, rfl⟩ | ⟨hearly, hexit⟩
    · exact iff_of_true hspent rfl
    · refine iff_of_false (Nat.ne_of_lt hearly) ?_
      unfold Ensemble.exit? at hexit
      split at hexit
      · cases hexit
        exact Bool.noConfusion
      · cases hexit
  · exact fun trace htrace => hshaped.size_of_mem htrace
  · intro hpos
    show e.traces.map Array.back? = (e.replicas.map (·.energy)).map some
    rw [hbooks.traces hpos, List.map_map]
    rfl
  · exact (List.length_map _).trans hshaped.length_replicas
  · exact (List.length_map _).trans hshaped.length_replicas
  · exact (List.length_map _).trans hshaped.tallies
  · intro i t ht
    have hshown := hbooks.tallies i t ht
    refine ⟨hshown.attempts, hshown.accepts, ?_⟩
    show (e.tallies.map Tally.rate)[i]? = _
    rw [List.getElem?_map, ht]
    rfl
  · intro hadapts
    refine ⟨hbooks.length_of_adapts hadapts, ?_, hbooks.windows⟩
    rw [hjournal]
    exact hbooks.journal_of_adapts hadapts
  · intro hadapts
    have hnone := hbooks.eq_nil_of_not_adapts hadapts
    refine ⟨hnone, ?_⟩
    rw [hjournal, hbooks.journal, hnone]
    rfl

/-- Three replicas on an adaptive ladder, in more rounds than come before two adaptations. -/
def adaptiveRounds : Config Float :=
  { Config.standard with replicas := 3, spacing := .adaptive, totalSwaps := 25 }

/-- In twenty-five rounds the ladder is adapted twice. -/
theorem run_accounting_slide :
    (Walk.slide.Total ∧ adaptiveRounds.validate = .ok () ∧ adaptiveRounds.reserve = .ok () ∧
      adaptiveRounds.spacing = .adaptive) ∧
    ∃ report, run Walk.slide adaptiveRounds .never [3.0, 4.0] = .ok report ∧
      report.result.rounds = 25 ∧ report.result.swapRates.length = 2 ∧
      report.evaluations = 3751 ∧ report.journal.filterMap adaptedAfter? = [10, 20] := by
  have hvalid : adaptiveRounds.validate = .ok () := by rfl
  have hroom : adaptiveRounds.reserve = .ok () := by rfl
  have hpromise := run_accounting Walk.slide adaptiveRounds .never [3.0, 4.0]
  obtain ⟨report, hreport⟩ :=
    hpromise.1 Walk.slide_total hvalid (List.cons_ne_nil _ _) hroom
  obtain ⟨energy, e, -, -, -, hrounds, -, hsizes, -, hmoves, hadapted, -⟩ :=
    hpromise.2 report hreport
  obtain ⟨-, -, -, energy', -, cancelled, e', hadvance, hends⟩ := run_eq_ok.mp hreport
  have hwhole : report.result.cancelled = false := by
    rw [hends]
    exact (Ensemble.exit_of_never hadvance).1
  have hall : report.result.rounds = 25 := hrounds.2.mpr hwhole
  obtain ⟨-, hjournal, -⟩ := hadapted ⟨rfl, by decide⟩
  have hevaluations := hmoves.2
  rw [hall] at hjournal hevaluations
  exact ⟨⟨Walk.slide_total, hvalid, hroom, rfl⟩, report, hreport, hall, hsizes.2.2.2.1,
    hevaluations, hjournal⟩

end ThermalSearch.Tempering
