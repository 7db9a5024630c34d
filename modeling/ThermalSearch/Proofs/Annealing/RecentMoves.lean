import ThermalSearch.Proofs.Annealing.Temperatures
import ThermalSearch.Proofs.Scalar.Exact
import ThermalSearch.Proofs.Scalar.Operations

/-!
# The recent past

A cooler that was new before some moves holds their latest outcomes and their latest finite energies,
each in order, and has counted the accepted ones among the outcomes (`remembers_observeAll`). The count
is taken down for an accepted move that leaves the window, and as that was counted when it came, it never
gets below zero (`Remembers.counted`). The ratio made of it is the share of accepted moves among the
latest: as it is in a field, and rounded once on the machine.

The cooler of a run sees each move of it. So up to a window of moves, the ratio the run returns is that
of all its moves.
-/

namespace ThermalSearch

namespace Cooler

/-! ## Shares -/

section

variable (K : Type) [Field K]

/-- The share of accepted moves among the latest, zero if there were none. -/
def recentShare (outcomes : List Bool) : K :=
  (outcomes.rtake window).count true / (outcomes.rtake window).length

theorem recentShare_nil : recentShare K [] = 0 := by
  rw [recentShare, List.rtake_nil, List.length_nil, Nat.cast_zero, div_zero]

/-- No outcome of a few was forgotten. -/
theorem recentShare_of_length_le {outcomes : List Bool} (h : outcomes.length ≤ window) :
    recentShare K outcomes = outcomes.count true / outcomes.length := by
  rw [recentShare, rtake_of_length_le h]

variable [LinearOrder K] [IsStrictOrderedRing K]

theorem recentShare_nonneg (outcomes : List Bool) : 0 ≤ recentShare K outcomes :=
  div_nonneg (Nat.cast_nonneg _) (Nat.cast_nonneg _)

theorem recentShare_le_one (outcomes : List Bool) : recentShare K outcomes ≤ 1 :=
  div_le_one_of_le₀ (Nat.cast_le.mpr List.count_le_length) (Nat.cast_nonneg _)

end

/-! ## What is remembered -/

section

variable {α : Type} [Scalar α]

/-- A cooler holds the latest of these moves. -/
structure Remembers (c : Cooler α) (moves : List (Bool × α)) : Prop where
  outcomes : c.outcomes = (moves.map Prod.fst).rtake window
  length_outcomes : c.outcomes.length = min window moves.length
  accepted : c.accepted = c.outcomes.count true
  /-- An accepted move that is about to leave is one of those counted. -/
  counted : c.outcomes.head? = some true → 0 < c.accepted
  energies : c.energies = ((moves.map Prod.snd).filter (Scalar.isFinite ·)).rtake window
  length_energies : c.energies.length =
    min window ((moves.map Prod.snd).countP (Scalar.isFinite ·))

theorem remembers_ofMoves (schedule : CoolingSchedule) (alpha lambda : α)
    (moves : List (Bool × α)) :
    (ofMoves schedule alpha lambda (moves.map Prod.fst) (moves.map Prod.snd)).Remembers moves where
  outcomes := rfl
  length_outcomes := by rw [ofMoves, length_rtake, List.length_map]
  accepted := rfl
  counted holdest := List.count_pos_iff.mpr (List.mem_of_head? holdest)
  energies := rfl
  length_energies := by rw [ofMoves, length_rtake, List.countP_eq_length_filter]

theorem remembers_observeAll (schedule : CoolingSchedule) (alpha lambda : α)
    (moves : List (Bool × α)) :
    (({ schedule, alpha, lambda } : Cooler α).observeAll moves).Remembers moves := by
  rw [observeAll_eq_ofMoves]
  exact remembers_ofMoves schedule alpha lambda moves

/-- What the ratio is made of. -/
theorem Remembers.share {c : Cooler α} {moves : List (Bool × α)} (h : c.Remembers moves)
    (K : Type) [Field K] :
    (c.accepted / c.outcomes.length : K) = recentShare K (moves.map Prod.fst) := by
  rw [h.accepted, h.outcomes]
  rfl

end

/-! ## The ratio -/

theorem Remembers.value_acceptanceRatio {K : Type} [Field K] [LinearOrder K] [FloorSemiring K]
    {f : Uninterpreted K} {c : Cooler (Exact f)} {moves : List (Bool × Exact f)}
    (h : c.Remembers moves) : c.acceptanceRatio.value = recentShare K (moves.map Prod.fst) := by
  rw [acceptanceRatio, Exact.value_fraction, h.share K]

section

open Binary64

variable {c : Cooler Float} {moves : List (Bool × Float)}

theorem Remembers.isRounded_acceptanceRatio (h : c.Remembers moves) :
    IsRounded c.acceptanceRatio (recentShare ℝ (moves.map Prod.fst)) := by
  have haccepted : c.accepted ≤ c.outcomes.length := h.accepted ▸ List.count_le_length
  have hwindow : c.outcomes.length ≤ window := by
    rw [h.length_outcomes]
    exact Nat.min_le_left _ _
  rw [← h.share ℝ]
  exact isRounded_fraction haccepted (hwindow.trans_lt (by decide))

/-- Rounding does not take a share out of its bounds. -/
theorem Remembers.acceptanceRatio_bounds (h : c.Remembers moves) :
    0.0 ≤ c.acceptanceRatio ∧ c.acceptanceRatio ≤ 1.0 := by
  have hone : OnGrid 1 := value_one ▸ onGrid_value (by rfl)
  have hgreatest : 1 ≤ greatest := value_one ▸ value_le_greatest (by rfl)
  obtain ⟨hfinite, hlow, hhigh⟩ := h.isRounded_acceptanceRatio.between onGrid_zero hone
    (by linarith) hgreatest (recentShare_nonneg ℝ _) (recentShare_le_one ℝ _)
  rw [le_iff_value_le (by rfl) hfinite, le_iff_value_le hfinite (by rfl), value_zero, value_one]
  exact ⟨hlow, hhigh⟩

end

end Cooler

/-! ## Runs -/

namespace Annealing

variable {α : Type} [Scalar α] {problem : Problem α} {config : Config α} {watch : Watch}
  {initial : State α} {report : Report α (Result α)}

/-- The ratio of a run is that of its latest moves, which may be all. -/
theorem acceptanceRatio_of_run (h : run problem config watch initial = .ok report) :
    let r := report.result
    ∃ outcomes : List Bool, outcomes.length = r.iterations ∧ outcomes.count true = r.accepts ∧
      r.acceptanceRatio = Scalar.fraction ((outcomes.rtake Cooler.window).count true)
        (min Cooler.window r.iterations) := by
  obtain ⟨energy, reason, c, -, hafter, rfl⟩ := exists_after_of_run h
  have hfollowed := Chain.followed_after hafter
  refine ⟨_, hfollowed.length_outcomes, hfollowed.accepts, ?_⟩
  show c.cooler.acceptanceRatio = _
  rw [Cooler.acceptanceRatio, hfollowed.cooler, Cooler.ofMoves, length_rtake,
    hfollowed.length_outcomes]
  rfl

theorem acceptanceRatio_of_short_run (h : run problem config watch initial = .ok report)
    (hpos : 1 ≤ report.result.iterations) (hshort : report.result.iterations ≤ Cooler.window) :
    report.result.acceptanceRatio =
      Scalar.ofNat report.result.accepts / Scalar.ofNat report.result.iterations := by
  obtain ⟨outcomes, hlength, haccepts, hratio⟩ := acceptanceRatio_of_run h
  -- nothing was forgotten, and there was something to count
  rw [hratio, rtake_of_length_le (hlength.trans_le hshort), haccepts, Nat.min_eq_right hshort,
    Scalar.fraction, if_neg (by omega)]

end Annealing

/-! ## Result -/

/-- After any moves a cooler that was new holds the latest hundred outcomes and the latest hundred
finite energies, or as many as there were, in order, and the number of the accepted ones, from which it
never takes off what was not counted. Its ratio is their share, rounded once on the machine, between zero
and one, and zero before any move. What a run of one to a hundred moves returns for it is the number of
accepted moves over that of all. -/
theorem recent_past :
    (∀ (α : Type) [Scalar α] (schedule : CoolingSchedule) (alpha lambda : α)
        (moves : List (Bool × α)),
      (({ schedule, alpha, lambda } : Cooler α).observeAll moves).Remembers moves) ∧
    (∀ (K : Type) [Field K] [LinearOrder K] [IsStrictOrderedRing K] [FloorSemiring K]
        (f : Uninterpreted K) (schedule : CoolingSchedule) (alpha lambda : Exact f)
        (moves : List (Bool × Exact f)),
      let ratio := (({ schedule, alpha, lambda } : Cooler (Exact f)).observeAll
        moves).acceptanceRatio.value
      ratio = Cooler.recentShare K (moves.map Prod.fst) ∧ 0 ≤ ratio ∧ ratio ≤ 1 ∧
        (moves = [] → ratio = 0)) ∧
    (∀ (schedule : CoolingSchedule) (alpha lambda : Float) (moves : List (Bool × Float)),
      let ratio := (({ schedule, alpha, lambda } : Cooler Float).observeAll moves).acceptanceRatio
      Binary64.IsRounded ratio (Cooler.recentShare ℝ (moves.map Prod.fst)) ∧ 0.0 ≤ ratio ∧
        ratio ≤ 1.0 ∧ (moves = [] → ratio = 0.0)) ∧
    ∀ (α : Type) [Scalar α] (problem : Problem α) (config : Annealing.Config α) (watch : Watch)
        (initial : State α),
      (problem.Total → config.validate = .ok () → initial ≠ [] →
        ∃ report, Annealing.run problem config watch initial = .ok report) ∧
      ∀ report, Annealing.run problem config watch initial = .ok report →
        1 ≤ report.result.iterations → report.result.iterations ≤ Cooler.window →
        report.result.acceptanceRatio =
          Scalar.ofNat report.result.accepts / Scalar.ofNat report.result.iterations := by
  refine ⟨fun α _ => Cooler.remembers_observeAll, ?_, ?_, ?_⟩
  · intro K _ _ _ _ f schedule alpha lambda moves ratio
    have hratio : ratio = Cooler.recentShare K (moves.map Prod.fst) :=
      (Cooler.remembers_observeAll schedule alpha lambda moves).value_acceptanceRatio
    rw [hratio]
    refine ⟨rfl, Cooler.recentShare_nonneg K _, Cooler.recentShare_le_one K _, ?_⟩
    rintro rfl
    exact Cooler.recentShare_nil K
  · intro schedule alpha lambda moves ratio
    have hremembers := Cooler.remembers_observeAll schedule alpha lambda moves
    obtain ⟨hlow, hhigh⟩ := hremembers.acceptanceRatio_bounds
    refine ⟨hremembers.isRounded_acceptanceRatio, hlow, hhigh, ?_⟩
    rintro rfl
    rfl
  · intro α _ problem config watch initial
    exact ⟨Annealing.run_total, fun report => Annealing.acceptanceRatio_of_short_run⟩

/-- A slide that ends in a wall before the last coordinate. -/
def deadEnd : Problem Float where
  energy state := .ok (if state.length < 2 then Scalar.infinity else Scalar.ofNat state.length)
  propose := Walk.shorten

theorem deadEnd_total : deadEnd.Total where
  energy _ := ⟨_, rfl⟩
  propose _ _ := ⟨_, rfl⟩

/-- When a hundred accepted moves are followed by fifty that are not, the share falls to a half. One
move gets down the dead end and two are refused. -/
theorem recent_past_deadEnd :
    let energy : Exact (default : Uninterpreted ℚ) := ⟨1⟩
    let moves := List.replicate 100 (true, energy) ++ List.replicate 50 (false, energy)
    let c := ({ schedule := .lamDelosme, alpha := energy, lambda := energy } :
      Cooler (Exact default)).observeAll moves
    c.outcomes = List.replicate 50 true ++ List.replicate 50 false ∧
    c.acceptanceRatio.value = 1 / 2 ∧ deadEnd.Total ∧ Annealing.threeMoves.validate = .ok () ∧
    ∃ report, Annealing.run deadEnd Annealing.threeMoves .never [3.0, 4.0, 5.0] = .ok report ∧
      report.result.iterations = 3 ∧
      report.result.acceptanceRatio = Scalar.ofNat 1 / Scalar.ofNat 3 := by
  intro energy moves c
  obtain ⟨hremembers, hexact, -, hruns⟩ := recent_past
  have houtcomes : c.outcomes = List.replicate 50 true ++ List.replicate 50 false := by
    rw [(hremembers _ .lamDelosme energy energy moves).outcomes]
    decide +kernel
  have hratio : c.acceptanceRatio.value = 1 / 2 := by
    rw [(hexact ℚ default .lamDelosme energy energy moves).1]
    decide +kernel
  have hvalid : Annealing.threeMoves.validate = .ok () := by rfl
  obtain ⟨hreturns, hshort⟩ := hruns Float deadEnd Annealing.threeMoves .never [3.0, 4.0, 5.0]
  obtain ⟨report, hreport⟩ := hreturns deadEnd_total hvalid (List.cons_ne_nil _ _)
  have hcounts : (Annealing.run deadEnd Annealing.threeMoves .never [3.0, 4.0, 5.0]).toOption.map
      (fun r => (r.result.accepts, r.result.iterations)) = some (1, 3) := by rfl
  rw [hreport] at hcounts
  obtain ⟨haccepts, hiterations⟩ := Prod.mk.inj (Option.some.inj hcounts)
  have hquotient := hshort report hreport (by rw [hiterations]; decide)
    (by rw [hiterations]; decide)
  rw [haccepts, hiterations] at hquotient
  exact ⟨houtcomes, hratio, deadEnd_total, hvalid, report, hreport, hiterations, hquotient⟩

end ThermalSearch
