import ThermalSearch.Proofs.Moves
import ThermalSearch.Proofs.Scalar.Infinity
import ThermalSearch.Proofs.Tempering.BestTracking
import ThermalSearch.Proofs.Tempering.Shape

/-!
# States of non-finite energy in exchanges

A Metropolis move never enters a state whose energy is not finite, so the only such state a run can
hold is its initial one. An exchange looks at less: it is refused when the gain it is judged by is
undefined, and an infinite gain is as good as any. Whether a pair whose colder rung holds a finite
energy takes over an infinite one is therefore a matter of signs (`Sinks`): minus infinity goes to the
colder rung of a pair in order, plus infinity to the colder rung of a pair that is out of order, and
an energy that is undefined stays where it is.

One offer is `exchange_accepts_iff_sinks`, a round of them `exchangePhase_offers`, and the runs are
`exchanges_of_nonfinite`.
-/

namespace ThermalSearch.Tempering

section

variable {α : Type} [Scalar α]

/-- Whether a pair with a finite energy on its colder rung takes an energy that is not finite over to
it. -/
def Sinks (cold hot energy : α) : Prop :=
  (energy < 0.0 ∧ 0.0 < 1.0 / cold - 1.0 / hot) ∨ (0.0 < energy ∧ 1.0 / cold - 1.0 / hot < 0.0)

instance (cold hot energy : α) : Decidable (Sinks cold hot energy) :=
  inferInstanceAs (Decidable (_ ∨ _))

/-- An offer is accepted for its gain, or by a draw. -/
theorem exchange_accepts_iff {cold hot coldEnergy hotEnergy gain : α}
    (hgain : (1.0 / cold - 1.0 / hot) * (coldEnergy - hotEnergy) = gain) (g : Generator) :
    ((exchange cold hot coldEnergy hotEnergy).decide g).1 = true ↔
      ¬ Scalar.isNaN gain ∧ (0.0 < gain ∨ (g.unit : α × Generator).1 < Scalar.exp gain) := by
  have hexchange : exchange cold hot coldEnergy hotEnergy =
      if Scalar.isNaN gain then .refuse
      else if 0.0 < gain then .accept
      else .chance (Scalar.exp gain) := by
    rw [← hgain]
    rfl
  rw [hexchange]
  by_cases hdefined : Scalar.isNaN gain
  · simp [hdefined, Verdict.decide]
  · by_cases hpos : 0.0 < gain
    · simp [hdefined, hpos, Verdict.decide]
    · simp [hdefined, hpos, Verdict.decide]

/-! ## Rounds of offers -/

/-- A pair of rungs after an offer. -/
def offered (cold hot : α) (a b : Replica α) (g : Generator) : Replica α × Replica α :=
  if ((exchange cold hot a.energy b.energy).decide g).1 then a.swap b else (a, b)

/-- When rungs are paired off from the first one on, the pairs at even places are made an offer each. -/
theorem exchangePairs_offers {temperatures : List α} {replicas : List (Replica α)}
    {tallies : List Tally} (g : Generator) {i : Nat} {cold hot : α} {a b : Replica α}
    (heven : i % 2 = 0) (hcold : temperatures[i]? = some cold)
    (hhot : temperatures[i + 1]? = some hot) (ha : replicas[i]? = some a)
    (hb : replicas[i + 1]? = some b) (htally : i < tallies.length) :
    ∃ g', (exchangePairs temperatures replicas tallies g).replicas[i]? =
        some (offered cold hot a b g').1 ∧
      (exchangePairs temperatures replicas tallies g).replicas[i + 1]? =
        some (offered cold hot a b g').2 := by
  fun_induction exchangePairs temperatures replicas tallies g generalizing i with
  | case1 _ _ _ _ _ _ _ tallies g accepted g' hdecide a' b' hpair rest =>
    rename_i ih
    rcases i with _ | _ | i
    · cases hcold
      cases hhot
      cases ha
      cases hb
      refine ⟨g, ?_⟩
      have hoffered : offered cold hot a b g = (a', b') := by
        rw [offered, hdecide]
        exact hpair
      rw [hoffered]
      exact ⟨rfl, rfl⟩
    · omega
    · refine ih (by omega) hcold hhot ha hb ?_
      rw [List.length_cons] at htally
      rw [List.length_drop]
      omega
  | case2 temperatures replicas tallies g hfew =>
    -- the pair at place `i` would have been paired off
    exfalso
    rcases temperatures with _ | ⟨first, _ | ⟨second, temperatures⟩⟩
    · simp at hcold
    · simp at hhot
    · rcases replicas with _ | ⟨r, _ | ⟨r', replicas⟩⟩
      · simp at ha
      · simp at hb
      · cases tallies with
        | nil => simp at htally
        | cons tally tallies =>
          exact hfew first second temperatures r r' replicas tally tallies rfl rfl rfl

/-- A round makes an offer to each pair of its parity. -/
theorem exchangePhase_offers {temperatures : List α} {replicas : List (Replica α)}
    {tallies : List Tally} {round : Nat} (g : Generator) {i : Nat} {cold hot : α}
    {a b : Replica α} (hparity : i % 2 = round % 2) (hcold : temperatures[i]? = some cold)
    (hhot : temperatures[i + 1]? = some hot) (ha : replicas[i]? = some a)
    (hb : replicas[i + 1]? = some b) (htally : i < tallies.length) :
    ∃ g', (exchangePhase round temperatures replicas tallies g).replicas[i]? =
        some (offered cold hot a b g').1 ∧
      (exchangePhase round temperatures replicas tallies g).replicas[i + 1]? =
        some (offered cold hot a b g').2 := by
  unfold exchangePhase
  by_cases heven : round % 2 = 0
  · rw [if_pos heven]
    exact exchangePairs_offers g (hparity.trans heven) hcold hhot ha hb htally
  · -- the coldest rung sits out, and so the places are counted from the next one
    rw [if_neg heven]
    cases i with
    | zero => omega
    | succ i =>
      cases replicas with
      | nil => simp at ha
      | cons r replicas =>
        have hsecond : temperatures.tail[i]? = some cold := by
          rw [List.getElem?_tail]
          exact hcold
        have hthird : temperatures.tail[i + 1]? = some hot := by
          rw [List.getElem?_tail]
          exact hhot
        have hrest : i < tallies.tail.length := by
          rw [List.length_tail]
          omega
        rw [List.drop_one, List.drop_one, List.drop_one]
        exact exchangePairs_offers g (by omega) hsecond hthird ha hb hrest

/-! ## Rounds -/

variable {problem : Problem α} {config : Config α}

namespace Ensemble

theorem replicas_conclude (config : Config α) (e : Ensemble α) :
    (e.conclude config).replicas =
      (exchangePhase e.rounds e.temperatures e.replicas e.tallies e.generator).replicas := by
  rcases conclude_frame config e with ⟨temperatures, tallies, journal, hframe⟩
  rw [hframe, trackBest_eq]
  rfl

/-- What a run holds and is not finite is what it started from. -/
theorem visit_eq_start [FiniteOrder α] {initial : State α} {energy : α} {n : Nat} {e : Ensemble α}
    (henergy : problem.energy initial = .ok energy)
    (hafter : after (round problem config) n (start config initial energy) = .ok e)
    {r : Replica α} (hr : r ∈ e.replicas) (hstuck : ¬ Scalar.isFinite r.energy) :
    r.visit = { state := initial, energy := energy } := by
  have htracked := tracked_after henergy hafter
  exact (htracked.finite_or_first (htracked.held r hr).1).resolve_left hstuck

/-- The exchanges of a round lose no visit, so this holds before them as well. -/
theorem visit_eq_start_of_moved [FiniteOrder α] {initial : State α} {energy : α} {n : Nat}
    {e e' : Ensemble α} {moved : List (Replica α)} (henergy : problem.energy initial = .ok energy)
    (hafter : after (round problem config) n (start config initial energy) = .ok e)
    (hround : e.round problem config = .ok e')
    (hreplicas : e'.replicas =
      (exchangePhase e.rounds e.temperatures moved e.tallies e.generator).replicas)
    {r : Replica α} (hr : r ∈ moved) (hstuck : ¬ Scalar.isFinite r.energy) :
    r.visit = { state := initial, energy := energy } := by
  have hnext : after (round problem config) (n + 1) (start config initial energy) = .ok e' :=
    after_add_eq_ok.mpr ⟨e, hafter, after_succ_eq_ok.mpr ⟨e', hround, rfl⟩⟩
  have hheld : r.visit ∈ e'.replicas.map Replica.visit := by
    rw [hreplicas]
    exact (exchangePhase_visits_perm _ _ _ _ _).mem_iff.mpr (List.mem_map_of_mem hr)
  rcases List.mem_map.mp hheld with ⟨s, hs, hvisit⟩
  rw [← hvisit]
  apply visit_eq_start henergy hnext hs
  have hsame : s.energy = r.energy := congrArg Visit.energy hvisit
  rw [hsame]
  exact hstuck

end Ensemble

end

/-! ## Binary floating point -/

open Binary64

section

variable {f : Elementary}

/-- Of the infinite gains only the positive one is accepted. -/
theorem accepts_infinite_iff (hexp : f.exp (-Scalar.infinity) = 0.0) {cold hot a b : Rounded f}
    {s : Float.Model.UnpackedFloat.Sign}
    (hgain : (1.0 / cold - 1.0 / hot) * (a - b) = infinite s) (g : Generator) :
    ((exchange cold hot a b).decide g).1 = true ↔ s = .positive := by
  rw [exchange_accepts_iff hgain]
  cases s with
  | positive =>
    refine iff_of_true ⟨?_, Or.inl ?_⟩ rfl
    · show ¬ (Scalar.infinity : Float).isNaN = true
      decide
    · exact (zero_lt_infinite_iff .positive).mpr rfl
  | negative =>
    refine iff_of_false ?_ nofun
    rintro ⟨-, hpos | hdraw⟩
    · exact nomatch (zero_lt_infinite_iff .negative).mp hpos
    · have hchance : (g.unit : Float × Generator).1 < f.exp (-Scalar.infinity) := hdraw
      rw [hexp] at hchance
      exact not_unit_lt_zero g hchance

/-- An offer to a pair with a finite energy on its colder rung only is decided by signs. -/
theorem exchange_accepts_iff_sinks (hexp : f.exp (-Scalar.infinity) = 0.0)
    (cold hot : Rounded f) {a b : Rounded f} (ha : Scalar.isFinite a) (hb : ¬ Scalar.isFinite b)
    (g : Generator) : ((exchange cold hot a b).decide g).1 = true ↔ Sinks cold hot b := by
  have hundefined : Scalar.isNaN ((1.0 / cold - 1.0 / hot) * (a - b)) = true →
      ¬ ((exchange cold hot a b).decide g).1 = true := by
    intro hnan
    rw [exchange_accepts_iff rfl]
    rintro ⟨hdefined, -⟩
    exact hdefined hnan
  rcases not_finite_cases hb with ⟨s, hinfinite⟩ | hnan
  · have hbelow : b < 0.0 ↔ s = .negative := by
      rw [hinfinite]
      exact infinite_lt_zero_iff s
    have habove : 0.0 < b ↔ s = .positive := by
      rw [hinfinite]
      exact zero_lt_infinite_iff s
    have hdifference : a - b = infinite (-s) := by
      rw [hinfinite]
      exact sub_infinite ha s
    have hgains : let d := 1.0 / cold - 1.0 / hot
        (0.0 < d ∧ ¬ d < 0.0 ∧ d * (a - b) = infinite (-s)) ∨
          (d < 0.0 ∧ ¬ 0.0 < d ∧ d * (a - b) = infinite (- -s)) ∨
          (¬ 0.0 < d ∧ ¬ d < 0.0 ∧ Scalar.isNaN (d * (a - b)) = true) := by
      rw [hdifference]
      exact mul_infinite_cases _ _
    unfold Sinks
    rw [hbelow, habove]
    rcases hgains with ⟨hpos, hneg, hgain⟩ | ⟨hneg, hpos, hgain⟩ | ⟨hpos, hneg, hgain⟩
    · rw [accepts_infinite_iff hexp hgain, neg_eq_positive_iff]
      simp [hpos, hneg]
    · rw [accepts_infinite_iff hexp hgain, neg_neg_sign]
      simp [hpos, hneg]
    · refine iff_of_false (hundefined hgain) ?_
      simp [hpos, hneg]
  · rcases not_lt_of_isNaN hnan 0.0 with ⟨hpos, hneg⟩
    have hgain : Scalar.isNaN ((1.0 / cold - 1.0 / hot) * (a - b)) = true :=
      isNaN_mul (isNaN_sub hnan)
    refine iff_of_false (hundefined hgain) ?_
    rintro (⟨hb, -⟩ | ⟨hb, -⟩)
    · exact hneg hb
    · exact hpos hb

theorem offered_of_nonfinite (hexp : f.exp (-Scalar.infinity) = 0.0) (cold hot : Rounded f)
    {a b : Replica (Rounded f)} (ha : Scalar.isFinite a.energy) (hb : ¬ Scalar.isFinite b.energy)
    (g : Generator) :
    offered cold hot a b g = if Sinks cold hot b.energy then a.swap b else (a, b) := by
  unfold offered
  exact if_congr (exchange_accepts_iff_sinks hexp cold hot ha hb g) rfl rfl

/-! ## Result -/

/-- In every round of every run, an offer to a pair whose colder rung holds a finite energy and whose
hotter rung holds none is about the initial state of the run, and the signs of its energy and of the
difference of the inverse temperatures decide whether it goes to the colder rung. In particular no
state goes there when the initial energy is finite or undefined. -/
theorem exchanges_of_nonfinite (hexp : f.exp (-Scalar.infinity) = 0.0)
    (problem : Problem (Rounded f)) (config : Config (Rounded f)) (watch : Watch)
    (initial : State (Rounded f)) :
    (problem.Total → config.validate = .ok () → initial ≠ [] → config.reserve = .ok () →
      ∃ report, run problem config watch initial = .ok report) ∧
    ∀ energy n e moved e', problem.energy initial = .ok energy →
      after (Ensemble.round problem config) n (Ensemble.start config initial energy) = .ok e →
      localPhase problem config.sweepsPerSwap e.temperatures e.replicas = .ok moved →
      e.round problem config = .ok e' →
      ∀ i cold hot a b, i % 2 = e.rounds % 2 →
        e.temperatures[i]? = some cold → e.temperatures[i + 1]? = some hot →
        moved[i]? = some a → moved[i + 1]? = some b →
        Scalar.isFinite a.energy → ¬ Scalar.isFinite b.energy →
        b.visit = { state := initial, energy := energy } ∧
        (Sinks cold hot energy →
          e'.replicas[i]? = some (a.swap b).1 ∧ e'.replicas[i + 1]? = some (a.swap b).2) ∧
        (¬ Sinks cold hot energy →
          e'.replicas[i]? = some a ∧ e'.replicas[i + 1]? = some b) := by
  refine ⟨run_total, ?_⟩
  intro energy n e moved e' henergy hafter hmoved hround i cold hot a b hparity hcold hhot ha hb
    hfinite hstuck
  have hreplicas : e'.replicas =
      (exchangePhase e.rounds e.temperatures moved e.tallies e.generator).replicas := by
    rcases Ensemble.round_eq_ok.mp hround with ⟨replicas, hlocal, rfl⟩
    cases hmoved.symm.trans hlocal
    exact Ensemble.replicas_conclude config _
  have hvisit : b.visit = { state := initial, energy := energy } :=
    Ensemble.visit_eq_start_of_moved henergy hafter hround hreplicas (List.mem_of_getElem? hb) hstuck
  have henergyEq : b.energy = energy := congrArg Visit.energy hvisit
  have hshaped := Ensemble.shaped_after hafter
  have htally : i < e.tallies.length := by
    have hrung : i + 1 < e.temperatures.length := (List.getElem?_eq_some_iff.mp hhot).1
    rw [hshaped.temperatures] at hrung
    rw [hshaped.tallies]
    omega
  rcases exchangePhase_offers e.generator hparity hcold hhot ha hb htally with ⟨g, hfirst, hsecond⟩
  rw [offered_of_nonfinite hexp cold hot hfinite hstuck, henergyEq, ← hreplicas] at hfirst hsecond
  refine ⟨hvisit, ?_, ?_⟩
  · intro hsinks
    rw [if_pos hsinks] at hfirst hsecond
    exact ⟨hfirst, hsecond⟩
  · intro hsinks
    rw [if_neg hsinks] at hfirst hsecond
    exact ⟨hfirst, hsecond⟩

end

/-- Elementary functions that are exact where two rungs and infinite energies ask for them. -/
def stepwise : Elementary where
  exp x := if x < 0.0 then 0.0 else 1.0
  ln _ := 0.0
  pow _ _ := 1.0

/-- Level ground with a bottomless pit where a coordinate lies below minus one. -/
def pit : Problem (Rounded stepwise) where
  energy state := .ok (if state.any fun x => decide (x < -1.0) then -Scalar.infinity else 1.0)
  propose := flipSpin

theorem pit_total : pit.Total where
  energy _ := ⟨_, rfl⟩
  propose := exists_flipSpin

/-- One round of two replicas. -/
def pitRound : Config (Rounded stepwise) :=
  { Config.standard with replicas := 2, sweepsPerSwap := 1, totalSwaps := 1, seed := 9 }

def pitStart : Ensemble (Rounded stepwise) :=
  Ensemble.start pitRound [-2.0, 0.0] (-Scalar.infinity)

/-- The colder replica climbs out of the pit, the hotter one does not, and the exchange puts the
pit back on the colder rung. -/
theorem exchanges_of_nonfinite_pit :
    stepwise.exp (-Scalar.infinity) = 0.0 ∧ pit.Total ∧ pitRound.validate = .ok () ∧
    pitRound.reserve = .ok () ∧
    (∃ report, run pit pitRound .never [-2.0, 0.0] = .ok report) ∧
    ∃ moved e' a b, localPhase pit 1 pitStart.temperatures pitStart.replicas = .ok moved ∧
      pitStart.round pit pitRound = .ok e' ∧ moved[0]? = some a ∧ moved[1]? = some b ∧
      Scalar.isFinite a.energy ∧
      b.visit = { state := [-2.0, 0.0], energy := -Scalar.infinity } ∧
      e'.replicas[0]? = some (a.swap b).1 := by
  have hexp : stepwise.exp (-Scalar.infinity) = 0.0 := by decide
  have hvalid : pitRound.validate = .ok () := by rfl
  have hroom : pitRound.reserve = .ok () := by rfl
  have hstart : pit.energy [-2.0, 0.0] = .ok (-Scalar.infinity) := by rfl
  have hladder : pitStart.temperatures = [0.1 * 1.0, 100.0] := by rfl
  have hsinks : Sinks (0.1 * 1.0 : Rounded stepwise) 100.0 (-Scalar.infinity) := by decide +kernel
  have hflags : (localPhase pit 1 pitStart.temperatures pitStart.replicas).toOption.map
      (fun moved => moved.map fun r => Scalar.isFinite r.energy) = some [true, false] := by
    decide +kernel
  have hnext : ∃ e', pitStart.round pit pitRound = .ok e' := Ensemble.round_total pit_total pitStart
  rcases hnext with ⟨e', hround⟩
  rcases localPhase_total pit_total 1 pitStart.temperatures pitStart.replicas with ⟨moved, hmoved⟩
  rw [hmoved] at hflags
  have hfinite : moved.map (fun r => Scalar.isFinite r.energy) = [true, false] :=
    Option.some.inj hflags
  rcases moved with _ | ⟨a, _ | ⟨b, rest⟩⟩
  · simp at hfinite
  · simp at hfinite
  · simp only [List.map_cons, List.cons.injEq] at hfinite
    rcases hfinite with ⟨ha, hb, -⟩
    rcases exchanges_of_nonfinite hexp pit pitRound .never [-2.0, 0.0] with ⟨hruns, hexchanges⟩
    rcases hexchanges _ 0 pitStart _ e' hstart rfl hmoved hround 0 _ _ a b rfl
      (by rw [hladder]; rfl) (by rw [hladder]; rfl) rfl rfl ha (by rw [hb]; decide)
      with ⟨hvisit, hsunk, -⟩
    exact ⟨hexp, pit_total, hvalid, hroom, hruns pit_total hvalid (List.cons_ne_nil _ _) hroom,
      _, e', a, b, hmoved, hround, rfl, rfl, ha, hvisit, (hsunk hsinks).1⟩

end ThermalSearch.Tempering
