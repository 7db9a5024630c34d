import Mathlib.Analysis.Complex.ExponentialBounds
import ThermalSearch.Proofs.Scalar.Differences
import ThermalSearch.Proofs.Scalar.Reals
import ThermalSearch.Proofs.Verdict

/-!
# Monotone acceptance

Said with comparisons instead of differences, the Metropolis rule enters what is an improvement, leaves
a move between finite energies to chance as long as the temperature is above zero, and refuses all else
(`metropolis_eq`). A number is drawn for that chance and for nothing else.

The rule is monotone: with one draw, a candidate that is entered would also be entered if it were lower
or the temperature higher (`accepts_mono`). The lower candidate may be an improvement, and then no draw
is made for it; otherwise both moves are left to chance, and the chance has risen.
-/

namespace ThermalSearch

section

variable {α : Type} [Scalar α]

/-- Whether the rule draws a number: both energies are finite, the candidate is not below the present
energy, and the temperature is not zero or below. -/
def LeftToChance (current candidate temperature : α) : Prop :=
  Scalar.isFinite current ∧ Scalar.isFinite candidate ∧ ¬ candidate < current ∧ ¬ temperature ≤ 0.0

instance (current candidate temperature : α) : Decidable (LeftToChance current candidate temperature) :=
  inferInstanceAs (Decidable (_ ∧ _))

/-- What is left to chance is no improvement. -/
theorem LeftToChance.improves_eq_false {current candidate temperature : α}
    (h : LeftToChance current candidate temperature) : improves candidate current = false := by
  obtain ⟨hcurrent, -, hnot, -⟩ := h
  simp only [improves, hcurrent, Bool.not_true, Bool.false_or, decide_eq_false hnot, Bool.and_false]

variable [SignedDifference α]

theorem metropolis_eq (current candidate temperature : α) :
    metropolis current candidate temperature =
      if improves candidate current then .accept
      else if LeftToChance current candidate temperature then
        .chance (Scalar.exp (-(candidate - current) / temperature))
      else .refuse := by
  unfold metropolis improves LeftToChance
  by_cases hcandidate : Scalar.isFinite candidate = true
  · by_cases hcurrent : Scalar.isFinite current = true
    · simp only [hcandidate, hcurrent, SignedDifference.sub_lt_zero_iff hcandidate hcurrent,
        Bool.not_true, Bool.false_eq_true, if_false, Bool.true_and, Bool.false_or, true_and,
        decide_eq_true_eq]
      by_cases hfalls : candidate < current
      · rw [if_pos hfalls, if_pos hfalls]
      · rw [if_neg hfalls, if_neg hfalls]
        by_cases hcold : temperature ≤ 0.0
        · rw [if_pos hcold, if_neg fun h => h.2 hcold]
        · rw [if_neg hcold, if_pos ⟨hfalls, hcold⟩]
    · simp [hcandidate, hcurrent]
  · simp [hcandidate]

/-- An improvement is entered without a draw. -/
theorem metropolis_of_improves {current candidate : α} (h : improves candidate current = true)
    (temperature : α) : metropolis current candidate temperature = .accept := by
  rw [metropolis_eq, if_pos h]

theorem cost_metropolis (current candidate temperature : α) :
    (metropolis current candidate temperature).cost =
      if LeftToChance current candidate temperature then 1 else 0 := by
  rw [metropolis_eq]
  by_cases hchance : LeftToChance current candidate temperature
  · rw [if_neg (by rw [hchance.improves_eq_false]; exact Bool.false_ne_true), if_pos hchance,
      if_pos hchance]
    rfl
  · rw [if_neg hchance, if_neg hchance]
    split <;> rfl

theorem accepts_metropolis_iff (current candidate temperature draw : α) :
    (metropolis current candidate temperature).Accepts draw ↔
      improves candidate current = true ∨ LeftToChance current candidate temperature ∧
        draw < Scalar.exp (-(candidate - current) / temperature) := by
  rw [metropolis_eq]
  by_cases himproves : improves candidate current = true
  · rw [if_pos himproves]
    exact iff_of_true trivial (Or.inl himproves)
  · rw [if_neg himproves, or_iff_right himproves]
    by_cases hchance : LeftToChance current candidate temperature
    · rw [if_pos hchance]
      exact (and_iff_right hchance).symm
    · rw [if_neg hchance]
      exact iff_of_false id fun h => hchance h.1

end

/-! ## Exact energies -/

section

variable {K : Type} [Field K] [LinearOrder K] [FloorSemiring K] {f : Uninterpreted K}

theorem improves_exact_iff {candidate best : Exact f} :
    improves candidate best = true ↔ candidate < best := decide_eq_true_iff

theorem leftToChance_exact_iff {current candidate temperature : Exact f} (hpos : 0.0 < temperature) :
    LeftToChance current candidate temperature ↔ current ≤ candidate := by
  have hwarm : ¬ temperature ≤ 0.0 := not_le.mpr (Exact.lt_iff.mp hpos)
  constructor
  · rintro ⟨-, -, hnot, -⟩
    exact not_lt.mp hnot
  · intro hle
    exact ⟨rfl, rfl, not_lt.mpr hle, hwarm⟩

variable [IsStrictOrderedRing K]

/-- The smaller the rise and the higher the temperature, the greater the chance. -/
theorem chance_mono (hexp : Monotone f.exp) {current candidate lower temperature hotter : Exact f}
    (hrises : current ≤ lower) (hlower : lower ≤ candidate) (hpos : 0.0 < temperature)
    (hhotter : temperature ≤ hotter) :
    Scalar.exp (-(candidate - current) / temperature) ≤
      Scalar.exp (-(lower - current) / hotter) := by
  rw [Exact.lt_iff, Exact.value_zero] at hpos
  rw [Exact.le_iff] at hrises hlower hhotter
  refine hexp ?_
  simp only [Exact.value_div, Exact.value_neg, Exact.value_sub, neg_div, neg_le_neg_iff]
  calc (lower.value - current.value) / hotter.value
      ≤ (lower.value - current.value) / temperature.value :=
        div_le_div_of_nonneg_left (sub_nonneg.mpr hrises) hpos hhotter
    _ ≤ (candidate.value - current.value) / temperature.value :=
        div_le_div_of_nonneg_right (sub_le_sub_right hlower _) hpos.le

/-- A draw that is low enough for a candidate is so for a lower one, and at a higher temperature. -/
theorem accepts_mono (hexp : Monotone f.exp)
    {current candidate lower temperature hotter draw : Exact f} (hlower : lower ≤ candidate)
    (hpos : 0.0 < temperature) (hhotter : temperature ≤ hotter)
    (h : (metropolis current candidate temperature).Accepts draw) :
    (metropolis current lower hotter).Accepts draw := by
  have hpos' : 0.0 < hotter := lt_of_lt_of_le (α := K) hpos hhotter
  rw [accepts_metropolis_iff, improves_exact_iff, leftToChance_exact_iff hpos] at h
  rw [accepts_metropolis_iff, improves_exact_iff, leftToChance_exact_iff hpos']
  rcases lt_or_ge lower.value current.value with hfalls | hrises
  · exact Or.inl hfalls
  · rcases h with hfalls | ⟨-, hdraw⟩
    · exact absurd (lt_of_le_of_lt (α := K) hlower hfalls) (not_lt.mpr hrises)
    · exact Or.inr ⟨hrises,
        lt_of_lt_of_le (α := K) hdraw (chance_mono hexp hrises hlower hpos hhotter)⟩

end

/-! ## Result -/

/-- With exact energies and any monotone exponential, what the Metropolis rule accepts it also accepts
with the same generator if the candidate is lower and the temperature higher. Whatever the numbers, an
improvement is accepted, and the generator gives one draw if both energies are finite, the candidate is
not below the present energy and the temperature is not zero or below; else it is left as it is. -/
theorem metropolis_monotone :
    (∀ (K : Type) [Field K] [LinearOrder K] [IsStrictOrderedRing K] [FloorSemiring K]
        (f : Uninterpreted K), Monotone f.exp →
      ∀ (g : Generator) (current candidate lower temperature hotter : Exact f),
        lower ≤ candidate → 0.0 < temperature → temperature ≤ hotter →
        ((metropolis current candidate temperature).decide g).1 = true →
        ((metropolis current lower hotter).decide g).1 = true) ∧
    ∀ (α : Type) [Scalar α] [SignedDifference α] (g : Generator)
      (current candidate temperature : α),
      (improves candidate current = true →
        (metropolis current candidate temperature).decide g = (true, g)) ∧
      ((metropolis current candidate temperature).decide g).2 =
        g.skip (if LeftToChance current candidate temperature then 1 else 0) := by
  constructor
  · intro K _ _ _ _ f hexp g current candidate lower temperature hotter hlower hpos hhotter h
    rw [Verdict.decide_iff_accepts] at h ⊢
    exact accepts_mono hexp hlower hpos hhotter h
  · intro α _ _ g current candidate temperature
    constructor
    · intro himproves
      rw [metropolis_of_improves himproves]
      rfl
    · rw [Verdict.decide_generator, cost_metropolis]

/-- At temperature one the generator of seed 3 accepts a rise by one, and so it accepts half of that
rise at temperature two. In floating point it is drawn from for a rise and not for a fall. -/
theorem metropolis_monotone_rise :
    let zero : Exact (realFunctions 0) := ⟨0⟩
    let half : Exact (realFunctions 0) := ⟨1 / 2⟩
    let one : Exact (realFunctions 0) := ⟨1⟩
    let two : Exact (realFunctions 0) := ⟨2⟩
    let g := Generator.ofSeed 3
    Monotone (realFunctions 0).exp ∧ half ≤ one ∧ 0.0 < one ∧ one ≤ two ∧
    ((metropolis zero one one).decide g).1 = true ∧
    ((metropolis zero half two).decide g).1 = true ∧
    improves (4.0 : Float) 5.0 = true ∧ (metropolis (5.0 : Float) 4.0 1.0).decide g = (true, g) ∧
    ((metropolis (4.0 : Float) 5.0 1.0).decide g).2 = g.word.2 := by
  intro zero half one two g
  have hexp : Monotone (realFunctions 0).exp := Real.exp_monotone
  have hhalf : half ≤ one := by
    rw [Exact.le_iff]
    norm_num [half, one]
  have hone : 0.0 < one := by
    rw [Exact.lt_iff, Exact.value_zero]
    exact zero_lt_one
  have htwo : one ≤ two := Exact.le_iff.mpr one_le_two
  have hword : (g.word.1 >>> 11).toNat < 2 ^ 51 := by decide +kernel
  have hdraw : (g.unit : Exact (realFunctions 0) × Generator).1.value < 1 / 4 := by
    have hword' : ((g.word.1 >>> 11).toNat : ℝ) < 2 ^ 51 := by exact_mod_cast hword
    rw [Generator.value_unit, div_lt_iff₀ (by norm_num)]
    exact hword'.trans_le (by norm_num)
  have hup : ((metropolis zero one one).decide g).1 = true := by
    rw [Verdict.decide_iff_accepts, accepts_metropolis_iff, leftToChance_exact_iff hone]
    refine Or.inr ⟨Exact.le_iff.mpr zero_le_one, Exact.lt_iff.mpr (hdraw.trans ?_)⟩
    have hexponent : (-(1 - 0) / 1 : ℝ) = -1 := by norm_num
    show 1 / 4 < Real.exp (-(1 - 0) / 1)
    rw [hexponent]
    exact lt_trans (by norm_num) Real.exp_neg_one_gt_d9
  obtain ⟨hmono, hdraws⟩ := metropolis_monotone
  have himproves : improves (4.0 : Float) 5.0 = true := by decide
  exact ⟨hexp, hhalf, hone, htwo, hup, hmono ℝ _ hexp g zero one half one two hhalf hone htwo hup,
    himproves, (hdraws Float g 5.0 4.0 1.0).1 himproves,
    (hdraws Float g 4.0 5.0 1.0).2⟩

end ThermalSearch
