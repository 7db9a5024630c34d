import ThermalSearch.Proofs.Annealing.Reach
import ThermalSearch.Proofs.Scalar.Overflow
import ThermalSearch.Proofs.Tempering.Reach

/-!
# Runs within bounds

A bounded step moves one coordinate and brings back that one only. If all others are within their
bounds they stay there, and the one that is moved gets there, so a state in the box is left for states
in the box (`BoundedStep.keeps_box`), and a run that starts in the box stays in it
(`run_in_box`).

The box may be open towards infinity, and have more or fewer sides than the state has coordinates. A
number that is brought between bounds has to be defined, which it is after a move: offsets are finite.
-/

namespace ThermalSearch

/-! ## Bounds that are accepted -/

section

variable {α : Type} [Scalar α]

/-- Bounds that enclose something. -/
structure Encloses (lo hi : α) : Prop where
  lower : Scalar.isNaN lo = false
  upper : Scalar.isNaN hi = false
  ordered : ¬ hi < lo

namespace BoundedStep

theorem requireBounds_eq_ok_iff {i : Nat} {lower upper : List α} :
    requireBounds i lower upper = .ok () ↔
      ∀ (k : Nat) lo hi, lower[k]? = some lo → upper[k]? = some hi → Encloses lo hi := by
  induction lower generalizing i upper with
  | nil => simp [requireBounds]
  | cons lo lower ih =>
    cases upper with
    | nil => simp [requireBounds]
    | cons hi upper =>
      rw [requireBounds, check_eq_ok_iff, refuseIf_eq_ok_iff, ih]
      simp only [Bool.or_eq_false_iff, decide_eq_false_iff_not]
      constructor
      · rintro ⟨⟨⟨hlo, hhi⟩, hordered⟩, hrest⟩ k lo' hi' hk hk'
        cases k with
        | zero =>
          cases hk
          cases hk'
          exact ⟨hlo, hhi, hordered⟩
        | succ k => exact hrest k lo' hi' hk hk'
      · intro hall
        obtain ⟨hlo, hhi, hordered⟩ := hall 0 lo hi rfl rfl
        exact ⟨⟨⟨hlo, hhi⟩, hordered⟩, fun k lo' hi' hk hk' => hall (k + 1) lo' hi' hk hk'⟩

end BoundedStep

/-- What a step is made of. -/
theorem UniformStep.ofSize_eq_ok_iff {size : α} {s : UniformStep α} :
    ofSize size = .ok s ↔ Scalar.isFinite size = true ∧ ¬ size ≤ 0.0 ∧ s = { size } := by
  rw [ofSize, check_eq_ok_iff, check_eq_ok_iff, requireFinite_eq_ok_iff, refuseIf_eq_ok_iff,
    decide_eq_false_iff_not]
  constructor
  · rintro ⟨hfinite, hpos, hreturn⟩
    cases hreturn
    exact ⟨hfinite, hpos, rfl⟩
  · rintro ⟨hfinite, hpos, rfl⟩
    exact ⟨hfinite, hpos, rfl⟩

namespace BoundedStep

/-- What a bounded step is made of. -/
theorem ofBounds_eq_ok_iff {size : α} {lower upper : List α} {s : BoundedStep α} :
    ofBounds size lower upper = .ok s ↔
      Scalar.isFinite size = true ∧ ¬ size ≤ 0.0 ∧ lower.length = upper.length ∧
        (∀ (k : Nat) lo hi, lower[k]? = some lo → upper[k]? = some hi → Encloses lo hi) ∧
        s = { step := { size }, lower, upper } := by
  unfold ofBounds
  rw [bind_eq_ok_iff]
  simp only [check_eq_ok_iff, requireLength_eq_ok_iff, requireBounds_eq_ok_iff]
  constructor
  · rintro ⟨t, ht, hlength, hbounds, hreturn⟩
    obtain ⟨hfinite, hpos, rfl⟩ := UniformStep.ofSize_eq_ok_iff.mp ht
    cases hreturn
    exact ⟨hfinite, hpos, hlength, hbounds, rfl⟩
  · rintro ⟨hfinite, hpos, hlength, hbounds, rfl⟩
    exact ⟨{ size }, UniformStep.ofSize_eq_ok_iff.mpr ⟨hfinite, hpos, rfl⟩, hlength, hbounds, rfl⟩

/-- All that a move of a bounded step does. -/
theorem propose_cases {s : BoundedStep α} {state next : State α} {g g' : Generator}
    (h : s.propose state g = .ok (next, g')) :
    next = state ∨ ∃ (i : Nat) (x offset : α) (g₁ g₂ : Generator), state[i]? = some x ∧
      g₁.uniform (-s.step.size) s.step.size = .ok (offset, g₂) ∧
      next = state.set i (s.limit i (x + offset)) := by
  rcases changeOne_cases h with hstay | ⟨i, x, y, g₁, g₂, hx, hchange, hnext⟩
  · exact Or.inl hstay
  · obtain ⟨⟨moved, g₃⟩, hshift, hlimit⟩ := bind_eq_ok_iff.mp hchange
    obtain ⟨⟨offset, g₄⟩, huniform, hmoved⟩ := bind_eq_ok_iff.mp hshift
    cases hmoved
    cases hlimit
    exact Or.inr ⟨i, x, offset, g₁, _, hx, huniform, hnext⟩

end BoundedStep

/-- From a finite range of finite width there always is a uniform number. -/
theorem Generator.exists_uniform {low high : α} (hlow : Scalar.isFinite low = true)
    (hhigh : Scalar.isFinite high = true) (hwidth : Scalar.isFinite (high - low) = true)
    (g : Generator) : ∃ drawn, g.uniform low high = .ok drawn := by
  by_cases hlt : low < high
  · refine ⟨Generator.uniformLoop low high (high - low) maxAttempts g, ?_⟩
    unfold uniform
    simp only [if_pos hlt, hlow, hhigh, hwidth, Bool.and_self, if_true]
  · exact ⟨(low, g), if_neg hlt⟩

/-- If the range of offsets is of finite width, a number can be moved. -/
theorem UniformStep.exists_shift {s : UniformStep α} (hlow : Scalar.isFinite (-s.size) = true)
    (hhigh : Scalar.isFinite s.size = true) (hwidth : Scalar.isFinite (s.size - -s.size) = true)
    (x : α) (g : Generator) : ∃ moved, s.shift x g = .ok moved := by
  obtain ⟨⟨offset, g'⟩, hoffset⟩ := Generator.exists_uniform hlow hhigh hwidth g
  exact ⟨(x + offset, g'), bind_eq_ok_iff.mpr ⟨(offset, g'), hoffset, rfl⟩⟩

/-- Then a bounded step can always be made. -/
theorem BoundedStep.exists_propose {s : BoundedStep α}
    (hlow : Scalar.isFinite (-s.step.size) = true) (hhigh : Scalar.isFinite s.step.size = true)
    (hwidth : Scalar.isFinite (s.step.size - -s.step.size) = true) (state : State α)
    (g : Generator) : ∃ moved, s.propose state g = .ok moved := by
  refine exists_changeOne (fun i x g => ?_) state g
  obtain ⟨⟨y, g'⟩, hshift⟩ := s.step.exists_shift hlow hhigh hwidth x g
  exact ⟨(s.limit i y, g'), bind_eq_ok_iff.mpr ⟨_, hshift, rfl⟩⟩

end

/-! ## The box -/

/-- Each coordinate that has bounds lies between them, and is defined therefore. -/
def InBox (lower upper : List Float) (state : State Float) : Prop :=
  ∀ (i : Nat) x lo hi, state[i]? = some x → lower[i]? = some lo → upper[i]? = some hi →
    lo ≤ x ∧ x ≤ hi

theorem inBox_nil {upper : List Float} {state : State Float} : InBox [] upper state := by
  intro i x lo hi hx hlo hhi
  cases hlo

theorem inBox_cons {x lo hi : Float} {lower upper : List Float} {state : State Float}
    (hx : lo ≤ x ∧ x ≤ hi) (h : InBox lower upper state) :
    InBox (lo :: lower) (hi :: upper) (x :: state) := by
  intro i y lo' hi' hy hlo hhi
  cases i with
  | zero =>
    cases hy
    cases hlo
    cases hhi
    exact hx
  | succ i => exact h i y lo' hi' hy hlo hhi

theorem Encloses.le {lo hi : Float} (h : Encloses lo hi) : lo ≤ hi := by
  have hlo : ¬ lo.isNaN = true := by
    rw [Bool.not_eq_true]
    exact h.lower
  have hhi : ¬ hi.isNaN = true := by
    rw [Bool.not_eq_true]
    exact h.upper
  exact (Binary64.not_lt_iff hhi hlo).mp h.ordered

namespace BoundedStep

variable {size : Float} {lower upper : List Float} {s : BoundedStep Float}

/-- A bounded step leads from the box into the box. -/
theorem keeps_box (hstep : ofBounds size lower upper = .ok s) (energy : Energy Float) (n : Nat) :
    Problem.Keeps { energy, propose := s.propose }
      fun state => state.length = n ∧ InBox lower upper state := by
  obtain ⟨hsize, -, -, hbounds, rfl⟩ := ofBounds_eq_ok_iff.mp hstep
  rintro state g next g' ⟨hlength, hbox⟩ hpropose
  rcases propose_cases hpropose with rfl | ⟨i, x, offset, g₁, g₂, hx, huniform, rfl⟩
  · exact ⟨hlength, hbox⟩
  · refine ⟨List.length_set.trans hlength, ?_⟩
    intro j y lo hi hy hlo hhi
    rcases eq_or_ne i j with rfl | hother
    · -- the coordinate that was moved
      have hinside : i < state.length := (List.getElem?_eq_some_iff.mp hx).1
      rw [List.getElem?_set_self hinside] at hy
      have hoffset : offset.isFinite :=
        Binary64.isFinite_uniform (Binary64.isFinite_neg hsize) huniform
      have hdefined : ¬ (x + offset).isNaN :=
        Binary64.defined_add (Binary64.defined_of_le (hbox i x lo hi hx hlo hhi).1).2 hoffset
      have hy' : y = Scalar.clamp (x + offset) lo hi := by
        rw [← Option.some.inj hy]
        unfold limit
        dsimp only
        rw [hlo, hhi]
      rw [hy']
      exact Binary64.clamp_mem hdefined (hbounds i lo hi hlo hhi).le
    · rw [List.getElem?_set_ne hother] at hy
      exact hbox j y lo hi hy hlo hhi

end BoundedStep

/-! ## Result -/

/-- A run by bounded steps that starts in the box stays in the box: the states an annealing run visits,
the candidates a tempering run enters on any rung, those its rungs hold and remember at the end of each
round, and the best of either, are states of the initial length whose coordinates lie between their
bounds. -/
theorem run_in_box {size : Float} {lower upper : List Float} {s : BoundedStep Float}
    (hstep : BoundedStep.ofBounds size lower upper = .ok s) (energy : Energy Float) (watch : Watch)
    {initial : State Float} (hinitial : InBox lower upper initial) :
    let problem : Problem Float := { energy, propose := s.propose }
    let inside := fun state : State Float =>
      state.length = initial.length ∧ InBox lower upper state
    (∀ config report, Annealing.run problem config watch initial = .ok report →
      ∃ start, energy initial = .ok start ∧
        (∀ v ∈ (Annealing.Chain.start config initial start).visits problem config
          report.result.iterations, inside v.state) ∧ inside report.result.bestState) ∧
    ∀ config report, Tempering.run problem config watch initial = .ok report →
      ∃ start, energy initial = .ok start ∧
        (∀ v ∈ (Tempering.Ensemble.start config initial start).entered problem config
          report.result.rounds, inside v.state) ∧
        (∀ n e, after (Tempering.Ensemble.round problem config) n
          (Tempering.Ensemble.start config initial start) = .ok e →
            ∀ r ∈ e.replicas, inside r.state ∧ inside r.bestState) ∧
        inside report.result.bestState := by
  intro problem inside
  have hkeeps : problem.Keeps inside := s.keeps_box hstep energy initial.length
  have hinside : inside initial := ⟨rfl, hinitial⟩
  constructor
  · intro config report hrun
    exact Annealing.of_visits hrun hinside hkeeps
  · intro config report hrun
    obtain ⟨start, hstart, hentered, hbest⟩ := Tempering.of_visits hrun hinside hkeeps
    refine ⟨start, hstart, hentered, ?_, hbest⟩
    intro n e hafter r hr
    obtain ⟨-, hwithin⟩ := Tempering.Ensemble.within_after hkeeps
      (Tempering.Ensemble.within_start hinside start) hafter
    exact ⟨(hwithin.held r hr).state, (hwithin.held r hr).best⟩

/-- A box that is open below in its second coordinate. -/
def corner : BoundedStep Float where
  step := { size := 0.25 }
  lower := [0.0, -Scalar.infinity]
  upper := [1.0, 5.0]

/-- Moves in the corner on the way to the origin. -/
def cornered : Problem Float := { energy := Landscape.sphere, propose := corner.propose }

theorem cornered_total : cornered.Total where
  energy _ := ⟨_, rfl⟩
  propose := BoundedStep.exists_propose (by rfl) (by rfl) (by rfl)

/-- A state with a free coordinate besides those two stays in the corner. -/
theorem run_in_box_corner :
    BoundedStep.ofBounds 0.25 corner.lower corner.upper = .ok corner ∧
    InBox corner.lower corner.upper [0.5, 3.0, 7.0] ∧ Annealing.oneMove.validate = .ok () ∧
    Tempering.oneRound.validate = .ok () ∧ Tempering.oneRound.reserve = .ok () ∧
    (∃ report, Annealing.run cornered Annealing.oneMove .never [0.5, 3.0, 7.0] = .ok report ∧
      report.result.bestState.length = 3 ∧
      InBox corner.lower corner.upper report.result.bestState) ∧
    ∃ report, Tempering.run cornered Tempering.oneRound .never [0.5, 3.0, 7.0] = .ok report ∧
      report.result.bestState.length = 3 ∧
      InBox corner.lower corner.upper report.result.bestState := by
  have hstep : BoundedStep.ofBounds 0.25 corner.lower corner.upper = .ok corner := by rfl
  have hinitial : InBox corner.lower corner.upper [0.5, 3.0, 7.0] :=
    inBox_cons ⟨by decide, by decide⟩ (inBox_cons ⟨by decide, by decide⟩ inBox_nil)
  have hvalid : Annealing.oneMove.validate = .ok () := by rfl
  have hvalid' : Tempering.oneRound.validate = .ok () := by rfl
  have hroom : Tempering.oneRound.reserve = .ok () := by rfl
  obtain ⟨hanneal, htemper⟩ := run_in_box hstep Landscape.sphere .never hinitial
  obtain ⟨annealed, hannealed⟩ :
      ∃ report, Annealing.run cornered Annealing.oneMove .never [0.5, 3.0, 7.0] = .ok report :=
    Annealing.run_total cornered_total hvalid (List.cons_ne_nil _ _)
  obtain ⟨tempered, htempered⟩ :
      ∃ report, Tempering.run cornered Tempering.oneRound .never [0.5, 3.0, 7.0] = .ok report :=
    Tempering.run_total cornered_total hvalid' (List.cons_ne_nil _ _) hroom
  obtain ⟨-, -, -, hlength, hbox⟩ := hanneal _ annealed hannealed
  obtain ⟨-, -, -, -, hlength', hbox'⟩ := htemper _ tempered htempered
  exact ⟨hstep, hinitial, hvalid, hvalid', hroom, ⟨annealed, hannealed, hlength, hbox⟩,
    tempered, htempered, hlength', hbox'⟩

end ThermalSearch
