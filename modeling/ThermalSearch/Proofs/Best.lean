import ThermalSearch.Acceptance
import ThermalSearch.Proofs.Scalar.FiniteOrder
import ThermalSearch.Proposal
import ThermalSearch.Sample.Walk

/-!
# The best of the states visited

Both engines remember a best state in the same way: the next visit replaces the best one so far
when it `improves` on it. What they remember after a number of visits is therefore a left fold
(`better`), and it is the first visit of least finite energy:

* `FirstLeast.foldl_better`: folding in more visits keeps the first least one;
* `Least.merge`: so does comparing the bests of several searches, up to which of the equals
  it is.
-/

namespace ThermalSearch

variable {α : Type}

/-- The energies and proposals of a problem are functions: asking for one always gives an
answer. -/
structure Problem.Total (problem : Problem α) : Prop where
  energy : ∀ state, ∃ x, problem.energy state = .ok x
  propose : ∀ state g, ∃ moved, problem.propose state g = .ok moved

theorem Walk.slide_total : Walk.slide.Total where
  energy _ := ⟨_, rfl⟩
  propose _ _ := ⟨_, rfl⟩

/-- A state with its energy. -/
structure Visit (α : Type) where
  state : State α
  energy : α

/-- Neither engine asks for the energy of a state again: it is carried along. -/
def Visit.Sound (problem : Problem α) (v : Visit α) : Prop :=
  problem.energy v.state = .ok v.energy

variable [Scalar α]

namespace Visit

/-- Infinite and undefined energies count as infinitely bad. -/
def IsFinite (v : Visit α) : Prop := Scalar.isFinite v.energy = true

/-- Not worse than `w`: if `w` counts at all, neither above it nor infinitely bad. -/
def NoWorse (v w : Visit α) : Prop := w.IsFinite → v.IsFinite ∧ v.energy ≤ w.energy

/-- The best visit after one more. -/
def better (best next : Visit α) : Visit α :=
  if improves next.energy best.energy then next else best

end Visit

theorem improves_iff {candidate best : α} :
    improves candidate best = true ↔
      Scalar.isFinite candidate = true ∧ (Scalar.isFinite best = true → candidate < best) := by
  unfold improves
  cases Scalar.isFinite best <;> simp

namespace Visit.NoWorse

variable [FiniteOrder α] {u v w : Visit α}

theorem refl (v : Visit α) : v.NoWorse v := fun hfin => ⟨hfin, FiniteOrder.le_refl hfin⟩

theorem trans (huv : u.NoWorse v) (hvw : v.NoWorse w) : u.NoWorse w := by
  intro hw
  obtain ⟨hv, hle⟩ := hvw hw
  obtain ⟨hu, hle'⟩ := huv hv
  exact ⟨hu, FiniteOrder.le_trans hu hv hw hle' hle⟩

end Visit.NoWorse

/-- A candidate that is not finite is never entered. -/
theorem isFinite_of_metropolis {current candidate temperature : α} {g g' : Generator}
    (h : (metropolis current candidate temperature).decide g = (true, g')) :
    Scalar.isFinite candidate = true := by
  by_contra hinf
  have hrefuse : metropolis current candidate temperature = .refuse := by
    simp [metropolis, hinf]
  rw [hrefuse] at h
  cases h

/-! ## Least visits -/

/-- One of the visits, and no worse than any other. -/
structure Least (best : Visit α) (visits : List (Visit α)) : Prop where
  mem : best ∈ visits
  noWorse : ∀ v ∈ visits, best.NoWorse v

/-- The first of the least visits: those before it are worse, those after it no better. -/
structure FirstLeast (best : Visit α) (visits : List (Visit α)) : Prop where
  place : ∃ earlier later, visits = earlier ++ best :: later ∧
    (∀ v ∈ earlier, v.IsFinite → best.IsFinite ∧ best.energy < v.energy) ∧
    (∀ v ∈ later, best.NoWorse v)

namespace FirstLeast

theorem singleton (v : Visit α) : FirstLeast v [v] := by
  refine ⟨[], [], rfl, ?_, ?_⟩ <;> simp

variable [FiniteOrder α] {best : Visit α} {visits : List (Visit α)}

theorem least (h : FirstLeast best visits) : Least best visits := by
  rcases h.place with ⟨earlier, later, rfl, hearlier, hlater⟩
  refine ⟨by simp, ?_⟩
  intro v hv hfin
  rcases List.mem_append.mp hv with hv | hv
  · -- visits before the best are strictly above it
    have hlt := hearlier v hv hfin
    exact ⟨hlt.1, FiniteOrder.le_of_lt hlt.1 hfin hlt.2⟩
  · rcases List.mem_cons.mp hv with rfl | hv
    · exact ⟨hfin, FiniteOrder.le_refl hfin⟩
    · exact hlater v hv hfin

/-- One more visit. -/
theorem better (h : FirstLeast best visits) (next : Visit α) :
    FirstLeast (best.better next) (visits ++ [next]) := by
  unfold Visit.better
  split
  next himproves =>
    -- the new visit is finite, and strictly below everything finite before it
    rcases improves_iff.mp himproves with ⟨hnext, hbelow⟩
    refine ⟨visits, [], rfl, ?_, by simp⟩
    intro v hv hfin
    rcases h.least.noWorse v hv hfin with ⟨hbest, hle⟩
    exact ⟨hnext, FiniteOrder.lt_of_lt_of_le hnext hbest hfin (hbelow hbest) hle⟩
  next hkept =>
    -- the new visit is not finite, or not below the best: it joins those after it
    rcases h.place with ⟨earlier, later, rfl, hearlier, hlater⟩
    refine ⟨earlier, later ++ [next], by simp, hearlier, ?_⟩
    intro v hv hfin
    rcases List.mem_append.mp hv with hv | hv
    · exact hlater v hv hfin
    · cases List.mem_singleton.mp hv
      have hnot : ¬ (Scalar.isFinite best.energy = true → next.energy < best.energy) := by
        intro hbelow
        exact hkept (improves_iff.mpr ⟨hfin, hbelow⟩)
      rcases Classical.not_imp.mp hnot with ⟨hbest, hnotlt⟩
      exact ⟨hbest, (FiniteOrder.not_lt hfin hbest).mp hnotlt⟩

theorem foldl_better (h : FirstLeast best visits) (more : List (Visit α)) :
    FirstLeast (more.foldl Visit.better best) (visits ++ more) := by
  induction more generalizing best visits with
  | nil => simpa using h
  | cons v more ih => simpa using ih (h.better v)

end FirstLeast

namespace Least

variable {best : Visit α} {visits : List (Visit α)}

theorem foldl_better [FiniteOrder α] (start : Visit α) (more : List (Visit α)) :
    Least (more.foldl Visit.better start) (start :: more) :=
  ((FirstLeast.singleton start).foldl_better more).least

/-- Seen from the energies alone, a least visit is one with the least finite energy. -/
theorem energy_le (h : Least best visits)
    (hfin : ∃ x ∈ visits.map Visit.energy, Scalar.isFinite x) :
    Scalar.isFinite best.energy ∧ best.energy ∈ visits.map Visit.energy ∧
      ∀ x ∈ visits.map Visit.energy, Scalar.isFinite x → best.energy ≤ x := by
  rcases hfin with ⟨x, hx, hxfin⟩
  rcases List.mem_map.mp hx with ⟨v, hv, rfl⟩
  refine ⟨(h.noWorse v hv hxfin).1, List.mem_map_of_mem h.mem, ?_⟩
  intro y hy hyfin
  rcases List.mem_map.mp hy with ⟨w, hw, rfl⟩
  exact (h.noWorse w hw hyfin).2

/-- The best of all candidates is least among everything they and the old best stand for. -/
theorem merge [FiniteOrder α] {candidates all : List (Visit α)} (hbest : best ∈ all)
    (hmem : ∀ c ∈ candidates, c ∈ all)
    (hcover : ∀ v ∈ all, v.IsFinite →
      ∃ c ∈ best :: candidates, c.IsFinite ∧ c.energy ≤ v.energy) :
    Least (candidates.foldl Visit.better best) all := by
  have hleast : Least (candidates.foldl Visit.better best) (best :: candidates) :=
    foldl_better best candidates
  constructor
  · rcases List.mem_cons.mp hleast.mem with heq | hin
    · rw [heq]
      exact hbest
    · exact hmem _ hin
  · -- the best is below the candidate that covers `v`
    intro v hv hfin
    rcases hcover v hv hfin with ⟨c, hc, hcfin, hcv⟩
    rcases hleast.noWorse c hc hcfin with ⟨hfinite, hle⟩
    exact ⟨hfinite, FiniteOrder.le_trans hfinite hcfin hfin hle hcv⟩

end Least

end ThermalSearch
