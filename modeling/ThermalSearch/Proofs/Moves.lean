import ThermalSearch.Proofs.Scalar.Exact
import ThermalSearch.Proposal

/-!
# Moves between discrete values

A move replaces one coordinate. It always comes about, for an index that is drawn is an index of the
state, and what all coordinates have in common they have in common afterwards if the new one has it
too. Turning spins over and reassigning states are moves of this kind.
-/

namespace ThermalSearch

/-- What holds of a state holds of every state that is proposed there. -/
def Problem.Keeps {α : Type} (problem : Problem α) (P : State α → Prop) : Prop :=
  ∀ {state g next g'}, P state → problem.propose state g = .ok (next, g') → P next

variable {α : Type} {change : Nat → α → Generator → Except Fault (α × Generator)}
  {state next : State α} {g g' : Generator}

/-- All that a change of one coordinate does. -/
theorem changeOne_cases (h : changeOne change state g = .ok (next, g')) :
    next = state ∨ ∃ i x y g₁ g₂, state[i]? = some x ∧ change i x g₁ = .ok (y, g₂) ∧
      next = state.set i y := by
  unfold changeOne at h
  split at h
  · cases h
    exact Or.inl rfl
  · dsimp only at h
    split at h
    · cases h
    next x hx =>
      obtain ⟨⟨y, g₂⟩, hchange, hset⟩ := bind_eq_ok_iff.mp h
      cases hset
      exact Or.inr ⟨_, x, y, _, _, hx, hchange, rfl⟩

/-- A coordinate that is drawn exists, so what comes about is up to the change. -/
theorem changeOne_of_ne_nil (hstate : state ≠ []) {i : Nat} {g₁ : Generator}
    (hindex : g.index state.length = (i, g₁)) :
    ∃ x, state[i]? = some x ∧
      changeOne change state g = change i x g₁ >>= fun moved => .ok (state.set i moved.1, moved.2) := by
  have hlength : 0 < state.length := List.length_pos_iff.mpr hstate
  have hi : i < state.length := by
    have hdrawn := Generator.index_lt hlength g
    rwa [hindex] at hdrawn
  refine ⟨state[i], List.getElem?_eq_getElem hi, ?_⟩
  unfold changeOne
  rw [if_neg (by rwa [List.isEmpty_iff]), hindex]
  dsimp only
  rw [List.getElem?_eq_getElem hi]
  rfl

theorem exists_changeOne (hchange : ∀ i x g, ∃ moved, change i x g = .ok moved) (state : State α)
    (g : Generator) : ∃ moved, changeOne change state g = .ok moved := by
  by_cases hempty : state = []
  · exact ⟨(state, g), if_pos (List.isEmpty_iff.mpr hempty)⟩
  · obtain ⟨x, -, heq⟩ := changeOne_of_ne_nil hempty rfl
    obtain ⟨moved, hmoved⟩ := hchange _ x _
    exact ⟨_, heq.trans (bind_eq_ok_iff.mpr ⟨moved, hmoved, rfl⟩)⟩

/-- A change that fails everywhere fails on every state that has a coordinate. -/
theorem changeOne_eq_error {fault : Fault} (hchange : ∀ i x g, change i x g = .error fault)
    (hstate : state ≠ []) (g : Generator) : changeOne change state g = .error fault := by
  obtain ⟨x, -, heq⟩ := changeOne_of_ne_nil hstate rfl
  rw [heq, hchange]
  rfl

/-- All coordinates but one stay as they are. -/
theorem unchanged_changeOne (h : changeOne change state g = .ok (next, g')) :
    ∃ i : Nat, ∀ k : Nat, k ≠ i → next[k]? = state[k]? := by
  rcases changeOne_cases h with rfl | ⟨i, x, y, g₁, g₂, -, -, rfl⟩
  · exact ⟨0, fun _ _ => rfl⟩
  · exact ⟨i, fun k hk => List.getElem?_set_ne hk.symm⟩

theorem forall_mem_changeOne {P : α → Prop} (h : changeOne change state g = .ok (next, g'))
    (hstate : ∀ x ∈ state, P x)
    (hchange : ∀ {i x g y g'}, P x → change i x g = .ok (y, g') → P y) : ∀ x ∈ next, P x := by
  intro z hz
  rcases changeOne_cases h with rfl | ⟨i, x, y, g₁, g₂, hx, hy, rfl⟩
  · exact hstate z hz
  · rcases List.mem_or_eq_of_mem_set hz with hz | rfl
    · exact hstate z hz
    · exact hchange (hstate x (List.mem_of_getElem? hx)) hy

/-! ## Spins -/

theorem exists_flipSpin [Scalar α] (state : State α) (g : Generator) :
    ∃ moved, flipSpin state g = .ok moved :=
  exists_changeOne (fun _ _ _ => ⟨_, rfl⟩) state g

theorem length_flipSpin [Scalar α] (h : flipSpin state g = .ok (next, g')) :
    next.length = state.length :=
  length_changeOne h

/-- Every spin is up or down. -/
def State.IsSpins [Scalar α] (s : State α) : Prop := ∀ x ∈ s, x = 1.0 ∨ x = -(1.0)

/-- A spin that is turned over is a spin. -/
theorem isSpins_flipSpin {K : Type} [Field K] [LinearOrder K] [FloorSemiring K]
    {f : Uninterpreted K} {state next : State (Exact f)} (h : flipSpin state g = .ok (next, g'))
    (hstate : state.IsSpins) : next.IsSpins := by
  refine forall_mem_changeOne h hstate ?_
  intro i x g y g' hx hy
  cases hy
  rcases hx with rfl | rfl
  · exact Or.inr rfl
  · exact Or.inl (Exact.ext (neg_neg _))

/-! ## States of Potts spins -/

theorem exists_reassign [Scalar α] (states : Nat) (state : State α) (g : Generator) :
    ∃ moved, reassign states state g = .ok moved := by
  by_cases hfew : states < 2
  · exact ⟨_, if_pos hfew⟩
  · obtain ⟨moved, hmoved⟩ := exists_changeOne (fun _ x g => ⟨_, rfl⟩) state g
    refine ⟨moved, ?_⟩
    unfold reassign
    rw [if_neg hfew]
    exact hmoved

theorem length_reassign [Scalar α] {states : Nat} (h : reassign states state g = .ok (next, g')) :
    next.length = state.length := by
  unfold reassign at h
  split at h
  · cases h
    rfl
  · exact length_changeOne h

end ThermalSearch
