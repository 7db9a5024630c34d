import ThermalSearch.Proofs.Annealing.Reach
import ThermalSearch.Proofs.Model.SpinModel
import ThermalSearch.Proofs.Settings
import ThermalSearch.Proofs.Tempering.Reach
import ThermalSearch.Solver

/-!
# What is promised of an answer to a QUBO

A search goes through spins and answers with bits. The spins it visits are always up or down, so
that the bits of the best state stand for that state: their energy is the best energy of the run and
the constant (`answers_of_visit`). The run starts with all spins down, which stands for no bit set
and energy zero, and it never ends above its start.

Both searches can fail only before they begin: the settings are refused, or there is no room for the
spin model or for what a tempering run keeps (`exists_annealQubo_iff`, `exists_temperQubo_iff`). In
floating point a coefficient may also fail to be finite; nothing else is rejected
(`annealQubo_rejects_iff`, `temperQubo_rejects_iff`).

The histories of an annealing run and the counts of a tempering run grow while it goes, here without
bound. In memory and in 64 bits they have one, out of reach as it is, so that answers are promised to
searches that stay below it (`HistoriesFit`, `MovesFit`).
-/

namespace ThermalSearch.Solver

open Finset Qubo

/-! ## Taking the searches apart -/

section

variable {α : Type}

/-- Settings and matrix are checked; then a search is made, unless there is nothing to search. -/
theorem search_eq_ok {μ ρ β : Type} {check finite : Except (Rejection α) Unit} {p : Prop}
    [Decidable p] {empty : β} {model : Except Fault μ} {run : μ → Except (Failure α) ρ}
    {answer : ρ → β} {b : β} :
    (show Except (Failure α) β from do
      check
      finite
      if p then return empty
      let m ← model
      let r ← run m
      return answer r) = .ok b ↔
    check = .ok () ∧ finite = .ok () ∧
      if p then b = empty else ∃ m r, model = .ok m ∧ run m = .ok r ∧ b = answer r := by
  rw [check_eq_ok_iff, check_eq_ok_iff, liftRejection_eq_ok_iff, liftRejection_eq_ok_iff]
  refine and_congr_right fun _ => and_congr_right fun _ => ?_
  by_cases hp : p
  · rw [if_pos hp, if_pos hp]
    exact ⟨fun h => (Except.ok.inj h).symm, fun h => congrArg Except.ok h.symm⟩
  · rw [if_neg hp, if_neg hp, bind_eq_ok_iff]
    refine exists_congr fun m => ?_
    rw [liftFault_eq_ok_iff, bind_eq_ok_iff, ← exists_and_left]
    refine exists_congr fun r => and_congr_right fun _ => and_congr_right fun _ => ?_
    exact ⟨fun h => (Except.ok.inj h).symm, fun h => congrArg Except.ok h.symm⟩

/-- A search gives an answer when the checks pass and the run does, if there has to be one. -/
theorem exists_search_iff {μ ρ β : Type} {check finite : Except (Rejection α) Unit} {p : Prop}
    [Decidable p] {empty : β} {model : Except Fault μ} {run : μ → Except (Failure α) ρ}
    {answer : ρ → β} :
    (∃ b, (show Except (Failure α) β from do
      check
      finite
      if p then return empty
      let m ← model
      let r ← run m
      return answer r) = .ok b) ↔
    check = .ok () ∧ finite = .ok () ∧ (p ∨ ∃ m r, model = .ok m ∧ run m = .ok r) := by
  simp only [search_eq_ok]
  constructor
  · rintro ⟨b, hcheck, hfinite, h⟩
    refine ⟨hcheck, hfinite, ?_⟩
    by_cases hp : p
    · exact Or.inl hp
    · rw [if_neg hp] at h
      obtain ⟨m, r, hm, hr, -⟩ := h
      exact Or.inr ⟨m, r, hm, hr⟩
  · rintro ⟨hcheck, hfinite, h⟩
    by_cases hp : p
    · exact ⟨empty, hcheck, hfinite, by rw [if_pos hp]⟩
    · obtain ⟨m, r, hm, hr⟩ := h.resolve_left hp
      refine ⟨answer r, hcheck, hfinite, ?_⟩
      rw [if_neg hp]
      exact ⟨m, r, hm, hr, rfl⟩

/-- What goes on after a fault would have stopped it is not rejected if the rest is not. -/
theorem liftFault_bind_ne_rejected {β γ : Type} {first : Except Fault β}
    {rest : β → Except (Failure α) γ} {cause : Rejection α}
    (hrest : ∀ b, rest b ≠ .error (.rejected cause)) :
    (monadLift first >>= rest : Except (Failure α) γ) ≠ .error (.rejected cause) := by
  cases first with
  | error fault =>
    intro h
    cases h
  | ok b => exact hrest b

/-- With settings that pass, a search is rejected for its matrix or not at all. -/
theorem search_rejects_iff {μ ρ β : Type} {check finite : Except (Rejection α) Unit} {p : Prop}
    [Decidable p] {empty : β} {model : Except Fault μ} {run : μ → Except (Failure α) ρ}
    {answer : ρ → β} {cause : Rejection α} (hcheck : check = .ok ())
    (hrun : ¬ p → ∀ m, run m ≠ .error (.rejected cause)) :
    (show Except (Failure α) β from do
      check
      finite
      if p then return empty
      let m ← model
      let r ← run m
      return answer r) = .error (.rejected cause) ↔ finite = .error cause := by
  subst hcheck
  cases finite with
  | error other =>
    constructor
    · intro h
      cases h
      rfl
    · intro h
      cases h
      rfl
  | ok passed =>
    refine iff_of_false ?_ nofun
    show (if p then (.ok empty : Except (Failure α) β) else
      monadLift model >>= fun m => run m >>= fun r => .ok (answer r)) ≠ .error (.rejected cause)
    by_cases hp : p
    · rw [if_pos hp]
      nofun
    · rw [if_neg hp]
      refine liftFault_bind_ne_rejected fun m h => ?_
      cases hm : run m with
      | error failure =>
        rw [hm] at h
        cases h
        exact hrun hp m hm
      | ok r =>
        rw [hm] at h
        cases h

variable [Scalar α] {q : Qubo α}

theorem annealQubo_eq_ok {config : Annealing.Config α} {solution : Solution α Bits} :
    annealQubo q config = .ok solution ↔
      config.validate = .ok () ∧ requireFiniteMatrix q = .ok () ∧
        if q.size = 0 then solution = { answer := [] }
        else ∃ m report, q.toIsing = .ok m ∧
          Annealing.run (spinProblem m) config .never (allDown q.size) = .ok report ∧
          solution = {
            answer := bitsOfSpins report.result.bestState
            journal := report.journal ++ [.quboAnnealed q.size report.result.bestEnergy] } :=
  search_eq_ok

theorem temperQubo_eq_ok {config : Tempering.Config α} {solution : Solution α Bits} :
    temperQubo q config = .ok solution ↔
      config.validate = .ok () ∧ requireFiniteMatrix q = .ok () ∧
        if q.size = 0 then solution = { answer := [] }
        else ∃ m report, q.toIsing = .ok m ∧
          Tempering.run (spinProblem m) config .never (allDown q.size) = .ok report ∧
          solution = {
            answer := bitsOfSpins report.result.bestState
            journal := report.journal ++ [.quboTempered q.size report.result.bestEnergy] } :=
  search_eq_ok

theorem total_spinProblem {m : Ising α} (h : m.Fits) : (spinProblem m).Total where
  energy := Ising.exists_energy h
  propose := exists_flipSpin

theorem allDown_ne_nil {n : Nat} (hn : n ≠ 0) : (allDown n : State α) ≠ [] := by
  unfold allDown
  rw [Ne, List.replicate_eq_nil_iff]
  exact hn

/-- A run that is admitted can only fail by a fault. -/
theorem annealing_ne_rejected {problem : Problem α} {config : Annealing.Config α} {watch : Watch}
    {initial : State α} {cause : Rejection α} (hvalid : config.validate = .ok ())
    (hinitial : initial ≠ []) :
    Annealing.run problem config watch initial ≠ .error (.rejected cause) := by
  have hsome : initial.isEmpty = false := by simpa using hinitial
  unfold Annealing.run
  rw [hvalid, hsome]
  exact liftFault_bind_ne_rejected fun _ => liftFault_bind_ne_rejected fun _ => nofun

theorem tempering_ne_rejected {problem : Problem α} {config : Tempering.Config α} {watch : Watch}
    {initial : State α} {cause : Rejection α} (hvalid : config.validate = .ok ())
    (hinitial : initial ≠ []) :
    Tempering.run problem config watch initial ≠ .error (.rejected cause) := by
  have hsome : initial.isEmpty = false := by simpa using hinitial
  unfold Tempering.run
  rw [hvalid, hsome]
  exact liftFault_bind_ne_rejected fun _ => liftFault_bind_ne_rejected fun _ =>
    liftFault_bind_ne_rejected fun _ => nofun

theorem requireFiniteMatrix_eq_error_iff {cause : Rejection α} :
    requireFiniteMatrix q = .error cause ↔ cause = .matrixNotFinite ∧ q.isFinite = false := by
  unfold requireFiniteMatrix
  cases q.isFinite <;> simp [eq_comm]

theorem annealQubo_rejects_iff {config : Annealing.Config α} {cause : Rejection α}
    (hvalid : config.validate = .ok ()) :
    annealQubo q config = .error (.rejected cause) ↔
      cause = .matrixNotFinite ∧ q.isFinite = false := by
  refine (search_rejects_iff hvalid ?_).trans requireFiniteMatrix_eq_error_iff
  exact fun hsome m => annealing_ne_rejected hvalid (allDown_ne_nil hsome)

theorem temperQubo_rejects_iff {config : Tempering.Config α} {cause : Rejection α}
    (hvalid : config.validate = .ok ()) :
    temperQubo q config = .error (.rejected cause) ↔
      cause = .matrixNotFinite ∧ q.isFinite = false := by
  refine (search_rejects_iff hvalid ?_).trans requireFiniteMatrix_eq_error_iff
  exact fun hsome m => tempering_ne_rejected hvalid (allDown_ne_nil hsome)

end

/-! ## Answers -/

variable {K : Type} [Field K] [LinearOrder K] [FloorSemiring K] {f : Uninterpreted K}
  {q : Qubo (Exact f)} {m : Ising (Exact f)}

/-- Each bit is zero or one, and the energy is not above that of no bit at all. -/
structure Answers (q : Qubo (Exact f)) (x : Bits) : Prop where
  length : x.length = q.size
  bits : ∀ bit ∈ x, bit = 0 ∨ bit = 1
  energy : ∃ energy, q.evaluate x = .ok energy ∧ energy ≤ 0.0

theorem requireFiniteMatrix_eq_ok (q : Qubo (Exact f)) : requireFiniteMatrix q = .ok () := by
  have hfinite : q.isFinite = true := by
    unfold Qubo.isFinite
    rw [Array.all_eq_true]
    exact fun _ _ => rfl
  exact if_pos hfinite

theorem quadratic_clear (q : Qubo (Exact f)) (n : Nat) :
    q.quadratic (List.replicate n 0) = 0 := by
  have hclear : ∀ i, digit K (List.replicate n 0) i = 0 := by
    intro i
    have hbit : (List.replicate n (0 : UInt8)).getD i 0 = 0 := by
      rw [List.getD_eq_getElem?_getD, List.getElem?_replicate]
      split <;> rfl
    unfold digit Bits.holds
    rw [hbit]
    rfl
  unfold quadratic
  refine sum_eq_zero fun i _ => sum_eq_zero fun j _ => ?_
  rw [hclear, zero_mul, zero_mul]

theorem answers_nil (hfits : q.Fits) (hempty : q.size = 0) : Answers q [] where
  length := hempty.symm
  bits := by simp
  energy := by
    refine ⟨0.0, (evaluate_eq_ok_iff hfits).mpr ⟨hempty.symm, ?_⟩, le_refl (0.0 : Exact f).value⟩
    rw [Exact.value_zero]
    exact (quadratic_clear q 0).symm

/-- All spins down are the spins of bits that are all clear. -/
theorem allDown_eq (n : Nat) :
    (allDown n : State (Exact f)) = spinsOfBits (List.replicate n 0) := by
  unfold allDown spinsOfBits
  rw [List.map_replicate]
  rfl

theorem bits_bitsOfSpins (s : State (Exact f)) : ∀ bit ∈ bitsOfSpins s, bit = 0 ∨ bit = 1 := by
  intro bit hbit
  obtain ⟨σ, -, rfl⟩ := List.mem_map.mp hbit
  by_cases hσ : σ ≥ 0.0
  · exact Or.inr (if_pos hσ)
  · exact Or.inl (if_neg hσ)

/-- The spins a search goes through: up or down, one for each bit. -/
def IsAssignment (n : Nat) (s : State (Exact f)) : Prop := s.IsSpins ∧ s.length = n

theorem keeps_isAssignment (m : Ising (Exact f)) (n : Nat) :
    (spinProblem m).Keeps (IsAssignment n) := by
  rintro s g next g' ⟨hspins, hlength⟩ hnext
  exact ⟨isSpins_flipSpin hnext hspins, (length_flipSpin hnext).trans hlength⟩

theorem isAssignment_allDown (n : Nat) : IsAssignment n (allDown n : State (Exact f)) := by
  rw [allDown_eq]
  exact ⟨isSpins_spinsOfBits _, (length_spinsOfBits _).trans List.length_replicate⟩

/-! ## When there is an answer -/

theorem exists_annealQubo_iff (hfits : q.Fits) {config : Annealing.Config (Exact f)} :
    (∃ solution, annealQubo q config = .ok solution) ↔
      config.validate = .ok () ∧ q.size * q.size * 8 < 2 ^ 63 := by
  refine exists_search_iff.trans (and_congr_right fun hvalid => ?_)
  rw [and_iff_right (requireFiniteMatrix_eq_ok q)]
  constructor
  · rintro (hempty | ⟨m, -, hm, -⟩)
    · rw [hempty]
      decide
    · exact (exists_toIsing_iff hfits).mp ⟨m, hm⟩
  · intro hroom
    by_cases hempty : q.size = 0
    · exact Or.inl hempty
    · obtain ⟨m, hm⟩ := (exists_toIsing_iff hfits).mpr hroom
      have htotal := total_spinProblem (isMirroredBy_of_toIsing hfits hm).fits
      obtain ⟨report, hrun⟩ := Annealing.run_total htotal hvalid (allDown_ne_nil hempty)
      exact Or.inr ⟨m, report, hm, hrun⟩

theorem exists_temperQubo_iff (hfits : q.Fits) {config : Tempering.Config (Exact f)} :
    (∃ solution, temperQubo q config = .ok solution) ↔
      config.validate = .ok () ∧ (q.size = 0 ∨ q.size * q.size * 8 < 2 ^ 63 ∧
        config.effectiveReplicas * 400 < 2 ^ 63 ∧ config.totalSwaps * 8 < 2 ^ 63) := by
  refine exists_search_iff.trans (and_congr_right fun hvalid => ?_)
  rw [and_iff_right (requireFiniteMatrix_eq_ok q), ← Tempering.Config.reserve_eq_ok_iff]
  refine or_congr_right' fun hsome => ?_
  -- whichever model it is, its run needs room for the replicas and traces and nothing else
  have hruns {m : Ising (Exact f)} (hm : q.toIsing = .ok m) :
      (∃ report, Tempering.run (spinProblem m) config .never (allDown q.size) = .ok report) ↔
        config.reserve = .ok () :=
    Tempering.exists_run_iff (total_spinProblem (isMirroredBy_of_toIsing hfits hm).fits) hvalid
      (allDown_ne_nil hsome)
  constructor
  · rintro ⟨m, report, hm, hrun⟩
    exact ⟨(exists_toIsing_iff hfits).mp ⟨m, hm⟩, (hruns hm).mp ⟨report, hrun⟩⟩
  · rintro ⟨hroom, hreserve⟩
    obtain ⟨m, hm⟩ := (exists_toIsing_iff hfits).mpr hroom
    obtain ⟨report, hrun⟩ := (hruns hm).mpr hreserve
    exact ⟨m, report, hm, hrun⟩

/-- How long a history can become. It grows by doubling its room, and room for as many numbers again
would take half of the address space. -/
def historyRoom : Nat := 2 ^ 59

/-- The run of an annealing search, if it makes one, is short enough for its histories. -/
def HistoriesFit (q : Qubo (Exact f)) (config : Annealing.Config (Exact f)) : Prop :=
  ∀ m report, q.toIsing = .ok m →
    Annealing.run (spinProblem m) config .never (allDown q.size) = .ok report →
    report.result.iterations ≤ historyRoom

theorem historiesFit_of_le {config : Annealing.Config (Exact f)}
    (h : config.maxIterations ≤ historyRoom) : HistoriesFit q config :=
  fun _ _ _ hrun => (Annealing.iterations_le_of_run hrun).trans h

/-- The run of a tempering search, if it makes one, makes no more moves on a rung than 64 bits can
count. -/
def MovesFit (q : Qubo (Exact f)) (config : Tempering.Config (Exact f)) : Prop :=
  q.size ≠ 0 → config.sweepsPerSwap * config.totalSwaps < 2 ^ 64

variable [IsStrictOrderedRing K]

/-- A visit that is no worse than the start makes an answer, whose energy is that of the visit and
the constant. -/
theorem answers_of_visit (hfits : q.Fits) (hm : q.toIsing = .ok m) {v : Visit (Exact f)}
    (hsound : v.Sound (spinProblem m)) (hv : IsAssignment q.size v.state)
    (hstart : ∃ energy, (spinProblem m).energy (allDown q.size) = .ok energy ∧
      v.NoWorse { state := allDown q.size, energy := energy }) :
    Answers q (bitsOfSpins v.state) ∧
      q.evaluate (bitsOfSpins v.state) = .ok (v.energy + q.spinOffset) := by
  obtain ⟨energy, henergy, hnoWorse⟩ := hstart
  have hmirrored : q.IsMirroredBy m := isMirroredBy_of_toIsing hfits hm
  have hlength : (bitsOfSpins v.state).length = q.size := (length_bitsOfSpins _).trans hv.2
  have hsum : (v.energy + q.spinOffset).value = q.quadratic (bitsOfSpins v.state) := by
    have hvalue := (Ising.value_energy hmirrored.fits (hv.2.trans hmirrored.size.symm)).mp hsound
    rw [Exact.value_add, hvalue]
    exact hamiltonian_of_isSpins hmirrored hv.1 hv.2
  have hevaluate : q.evaluate (bitsOfSpins v.state) = .ok (v.energy + q.spinOffset) :=
    (evaluate_eq_ok_iff hfits).mpr ⟨hlength, hsum⟩
  -- the start stands for no bit at all, so the constant makes up for its energy
  have hzero : (energy + q.spinOffset).value = 0 := by
    have hdown : (allDown q.size : State (Exact f)).length = m.size :=
      List.length_replicate.trans hmirrored.size.symm
    have hvalue := (Ising.value_energy hmirrored.fits hdown).mp henergy
    rw [Exact.value_add, hvalue, allDown_eq, ← quadratic_clear q q.size]
    exact hamiltonian_spinsOfBits hmirrored List.length_replicate
  have hbelow : v.energy + q.spinOffset ≤ 0.0 := by
    have hle : v.energy.value ≤ energy.value := (hnoWorse rfl).2
    rw [Exact.value_add] at hzero
    rw [Exact.le_iff, Exact.value_add, Exact.value_zero, ← hzero]
    exact add_le_add_left hle _
  exact ⟨⟨hlength, bits_bitsOfSpins _, _, hevaluate, hbelow⟩, hevaluate⟩

/-! ## Results -/

/-- What annealing answers is no worse than no bit at all, and has the energy the run found. -/
theorem answers_annealQubo (hfits : q.Fits) {config : Annealing.Config (Exact f)}
    {solution : Solution (Exact f) Bits} (h : annealQubo q config = .ok solution) :
    Answers q solution.answer ∧
      (q.size ≠ 0 → ∃ m report offset, q.toIsing = .ok m ∧
        Annealing.run (spinProblem m) config .never (allDown q.size) = .ok report ∧
        q.isingOffset = .ok offset ∧
        q.evaluate solution.answer = .ok (report.result.bestEnergy + offset)) := by
  obtain ⟨-, -, h⟩ := annealQubo_eq_ok.mp h
  by_cases hempty : q.size = 0
  · rw [if_pos hempty] at h
    rw [h]
    exact ⟨answers_nil hfits hempty, fun hsome => absurd hempty hsome⟩
  · rw [if_neg hempty] at h
    obtain ⟨m, report, hm, hrun, rfl⟩ := h
    have hbest := Annealing.best_of_run hrun
    have hspins : IsAssignment q.size report.result.bestState :=
      Annealing.of_bestState hrun (isAssignment_allDown q.size) (keeps_isAssignment m q.size)
    obtain ⟨hanswers, hevaluate⟩ := answers_of_visit hfits hm hbest.1 hspins hbest.2
    refine ⟨hanswers, fun _ => ?_⟩
    exact ⟨m, report, q.spinOffset, hm, hrun, isingOffset_eq_ok hfits, hevaluate⟩

/-- So is what tempering answers. -/
theorem answers_temperQubo (hfits : q.Fits) {config : Tempering.Config (Exact f)}
    {solution : Solution (Exact f) Bits} (h : temperQubo q config = .ok solution) :
    Answers q solution.answer ∧
      (q.size ≠ 0 → ∃ m report offset, q.toIsing = .ok m ∧
        Tempering.run (spinProblem m) config .never (allDown q.size) = .ok report ∧
        q.isingOffset = .ok offset ∧
        q.evaluate solution.answer = .ok (report.result.bestEnergy + offset)) := by
  obtain ⟨-, -, h⟩ := temperQubo_eq_ok.mp h
  by_cases hempty : q.size = 0
  · rw [if_pos hempty] at h
    rw [h]
    exact ⟨answers_nil hfits hempty, fun hsome => absurd hempty hsome⟩
  · rw [if_neg hempty] at h
    obtain ⟨m, report, hm, hrun, rfl⟩ := h
    have hbest := Tempering.best_of_run hrun
    have hspins : IsAssignment q.size report.result.bestState :=
      Tempering.of_bestState hrun (isAssignment_allDown q.size) (keeps_isAssignment m q.size)
    obtain ⟨hanswers, hevaluate⟩ := answers_of_visit hfits hm hbest.1 hspins hbest.2
    refine ⟨hanswers, fun _ => ?_⟩
    exact ⟨m, report, q.spinOffset, hm, hrun, isingOffset_eq_ok hfits, hevaluate⟩

/-- A search of a QUBO gives an answer whenever its settings pass and there is room for what it
keeps, and then the bits are no worse than no bit at all and have the energy the run found. There is
always room for the histories of a run that is allowed no more moves than they can hold. -/
theorem searchQubo_answers (q : Qubo (Exact f)) (hfits : q.Fits) :
    (∀ config : Annealing.Config (Exact f),
      (config.maxIterations ≤ historyRoom → HistoriesFit q config) ∧
      (HistoriesFit q config → ((∃ solution, annealQubo q config = .ok solution) ↔
        config.validate = .ok () ∧ q.size * q.size * 8 < 2 ^ 63)) ∧
      ∀ solution, annealQubo q config = .ok solution → Answers q solution.answer ∧
        (q.size ≠ 0 → ∃ m report offset, q.toIsing = .ok m ∧
          Annealing.run (spinProblem m) config .never (allDown q.size) = .ok report ∧
          q.isingOffset = .ok offset ∧
          q.evaluate solution.answer = .ok (report.result.bestEnergy + offset))) ∧
    ∀ config : Tempering.Config (Exact f),
      (MovesFit q config → ((∃ solution, temperQubo q config = .ok solution) ↔
        config.validate = .ok () ∧ (q.size = 0 ∨ q.size * q.size * 8 < 2 ^ 63 ∧
          config.effectiveReplicas * 400 < 2 ^ 63 ∧ config.totalSwaps * 8 < 2 ^ 63))) ∧
      ∀ solution, temperQubo q config = .ok solution → Answers q solution.answer ∧
        (q.size ≠ 0 → ∃ m report offset, q.toIsing = .ok m ∧
          Tempering.run (spinProblem m) config .never (allDown q.size) = .ok report ∧
          q.isingOffset = .ok offset ∧
          q.evaluate solution.answer = .ok (report.result.bestEnergy + offset)) :=
  ⟨fun _ => ⟨historiesFit_of_le, fun _ => exists_annealQubo_iff hfits,
      fun _ => answers_annealQubo hfits⟩,
    fun _ => ⟨fun _ => exists_temperQubo_iff hfits, fun _ => answers_temperQubo hfits⟩⟩

theorem searchQubo_answers_rivals :
    (rivals.Fits ∧ HistoriesFit rivals .standard ∧ MovesFit rivals .standard) ∧
    (∃ solution, annealQubo rivals .standard = .ok solution ∧ Answers rivals solution.answer) ∧
    ∃ solution, temperQubo rivals .standard = .ok solution ∧ Answers rivals solution.answer := by
  obtain ⟨hanneal, htemper⟩ := searchQubo_answers rivals fits_rivals
  obtain ⟨hallowed, hannealIff, hannealAnswers⟩ := hanneal .standard
  obtain ⟨htemperIff, htemperAnswers⟩ := htemper .standard
  have hhistories : HistoriesFit rivals .standard :=
    hallowed (by decide : 10000 ≤ 2 ^ 59)
  have hmoves : MovesFit rivals .standard := fun _ => (by decide : 50 * 200 < 2 ^ 64)
  obtain ⟨annealed, hannealed⟩ :=
    (hannealIff hhistories).mpr ⟨Annealing.Config.validate_standard, by decide⟩
  obtain ⟨tempered, htempered⟩ :=
    (htemperIff hmoves).mpr ⟨Tempering.Config.validate_standard, Or.inr (by decide)⟩
  exact ⟨⟨fits_rivals, hhistories, hmoves⟩,
    ⟨annealed, hannealed, (hannealAnswers annealed hannealed).1⟩,
    tempered, htempered, (htemperAnswers tempered htempered).1⟩

/-- More rounds than there could ever be traces of. -/
def endless : Tempering.Config (Exact (default : Uninterpreted ℚ)) :=
  { Tempering.Config.standard with totalSwaps := 2 ^ 60 }

/-- So many bits that a coupling for each pair of them fits into no memory, although their
coefficients do. -/
def vast : Qubo (Exact (default : Uninterpreted ℚ)) :=
  { size := 2 ^ 30, entries := Array.replicate (cells (2 ^ 30)) ⟨0⟩ }

/-- Settings may pass and yet ask for more than any memory holds. -/
theorem no_answer_endless_vast :
    (rivals.Fits ∧ endless.validate = .ok () ∧
      ¬ ∃ solution, temperQubo rivals endless = .ok solution) ∧
    vast.Fits ∧ ¬ ∃ solution, annealQubo vast .standard = .ok solution := by
  have hvast : vast.Fits := ⟨Array.size_replicate, by decide⟩
  refine ⟨⟨fits_rivals, Tempering.Config.validate_standard (f := default), ?_⟩, hvast, ?_⟩
  · rw [exists_temperQubo_iff fits_rivals]
    rintro ⟨-, hempty | ⟨-, -, htraces⟩⟩
    · exact absurd hempty (by decide)
    · exact absurd htraces (by decide)
  · rw [exists_annealQubo_iff hvast]
    rintro ⟨-, hcouplings⟩
    exact absurd hcouplings (by decide)

end ThermalSearch.Solver
