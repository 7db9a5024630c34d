import Mathlib.Data.Set.Function
import ThermalSearch.Model.Potts
import ThermalSearch.Proofs.Moves
import ThermalSearch.Proofs.Scalar.Counts

/-!
# Reassigning a state

A reassignment draws one of one state less than there are, and goes past the present state by adding one
from there on. The present state is the one nearest to the coordinate, and may be beyond the last state of
the model: then nothing is gone past, and the greatest draw stops short of the last state. Either way the
outcome is not the state that the model takes the coordinate for (`otherState_ne`), and where that is the
present state itself, each other state is the outcome of one draw (`otherState_bijOn`).

State numbers up to 53 bits come back from a float as they were, so that what holds of states holds of
coordinates.
-/

namespace ThermalSearch

variable {states present drawn : Nat}

/-- The state to move to from the present one. -/
def otherState (states present drawn : Nat) : Nat :=
  min (if present ≤ drawn then drawn + 1 else drawn) (states - 1)

/-- What becomes of a coordinate. -/
def reassigned {α : Type} [Scalar α] (states : Nat) (x : α) (drawn : Nat) : α :=
  Scalar.ofNat (otherState states (Scalar.nearest x) drawn)

/-! ## States -/

theorem otherState_lt (hstates : 2 ≤ states) : otherState states present drawn < states := by
  unfold otherState
  omega

/-- The outcome is another state, also if the present one is taken for the last. -/
theorem otherState_ne (hdrawn : drawn < states - 1) :
    otherState states present drawn ≠ min present (states - 1) := by
  unfold otherState
  split <;> omega

/-- From a state that there is, every other one is the outcome of one draw. -/
theorem otherState_bijOn (hpresent : present < states) :
    Set.BijOn (otherState states present) {drawn | drawn < states - 1} {t | t < states ∧ t ≠ present} := by
  -- the draw that leads to a state is the state itself, or one less beyond the present one
  refine ⟨?_, ?_, ?_⟩
  · intro drawn hdrawn
    have hlt : drawn < states - 1 := hdrawn
    show otherState states present drawn < states ∧ otherState states present drawn ≠ present
    unfold otherState
    split <;> omega
  · intro drawn hdrawn other hother hsame
    have hlt : drawn < states - 1 := hdrawn
    have hlt' : other < states - 1 := hother
    have heq : otherState states present drawn = otherState states present other := hsame
    unfold otherState at heq
    split at heq <;> split at heq <;> omega
  · rintro t ⟨ht, hne⟩
    refine ⟨if present < t then t - 1 else t, ?_, ?_⟩
    · show (if present < t then t - 1 else t) < states - 1
      split <;> omega
    · unfold otherState
      split <;> split <;> omega

/-! ## Coordinates -/

section

open Binary64

variable {x : Float}

/-- State numbers are told apart by their coordinates. -/
theorem injOn_ofNat (hfits : states ≤ 2 ^ 53) :
    Set.InjOn (Scalar.ofNat : Nat → Float) {t | t < states} := by
  intro t ht u hu hsame
  have ht' : t < 2 ^ 53 := Nat.lt_of_lt_of_le ht hfits
  have hu' : u < 2 ^ 53 := Nat.lt_of_lt_of_le hu hfits
  rw [← nearest_ofNat ht', hsame, nearest_ofNat hu']

/-- The model takes the new coordinate for its state number, and the old one for some other state. -/
theorem decodeOne_reassigned {m : Potts Float} (hstates : 2 ≤ m.states) (hfits : m.states ≤ 2 ^ 53)
    (hdrawn : drawn < m.states - 1) (x : Float) :
    m.decodeOne (reassigned m.states x drawn) = otherState m.states (Scalar.nearest x) drawn ∧
      m.decodeOne x ≠ m.decodeOne (reassigned m.states x drawn) := by
  have hlt : otherState m.states (Scalar.nearest x) drawn < m.states := otherState_lt hstates
  have hnew : m.decodeOne (reassigned m.states x drawn) =
      otherState m.states (Scalar.nearest x) drawn := by
    unfold Potts.decodeOne reassigned
    rw [nearest_ofNat (Nat.lt_of_lt_of_le hlt hfits)]
    omega
  rw [hnew]
  exact ⟨rfl, (otherState_ne hdrawn).symm⟩

/-- From a coordinate that is a state number, the others are the outcome of one draw each. -/
theorem reassigned_bijOn (hfits : states ≤ 2 ^ 53) (hx : x.isFinite) (hpresent : present < states)
    (hvalue : value x = present) :
    Set.BijOn (reassigned states x) {drawn | drawn < states - 1}
      ((Scalar.ofNat : Nat → Float) '' {t | t < states ∧ t ≠ present}) := by
  have hnearest : Scalar.nearest x = present := nearest_of_value_eq hx (by omega) hvalue
  have hcoordinates : Set.InjOn (Scalar.ofNat : Nat → Float) {t | t < states ∧ t ≠ present} :=
    (injOn_ofNat hfits).mono (fun _ ht => ht.1)
  have hbij := hcoordinates.bijOn_image.comp (otherState_bijOn hpresent)
  rw [← hnearest] at hbij ⊢
  exact hbij

end

/-! ## Moves -/

/-- A reassignment is made of two draws: one for the coordinate and one for its state. -/
theorem reassign_eq_ok {α : Type} [Scalar α] (hstates : 2 ≤ states) {state : State α} (hstate : state ≠ [])
    {g g₁ g₂ : Generator} {i : Nat} (hindex : g.index state.length = (i, g₁))
    (hdraw : g₁.index (states - 1) = (drawn, g₂)) :
    ∃ x, state[i]? = some x ∧
      reassign states state g = .ok (state.set i (reassigned states x drawn), g₂) := by
  unfold reassign
  rw [if_neg (Nat.not_lt.mpr hstates)]
  obtain ⟨x, hx, heq⟩ := changeOne_of_ne_nil hstate hindex
  refine ⟨x, hx, heq.trans ?_⟩
  rw [hdraw]
  rfl

/-- A model to read state numbers by. -/
def withoutSpins (states : Nat) : Potts Float :=
  { states, couplings := { size := 0, cells := #[] }, field := #[] }

/-- A reassignment sets one coordinate and leaves the others alone. The coordinate becomes the number of a
state, and not of the one that a model takes it for, whatever number it was; and if it was the number of a
state, each other state comes of one draw. -/
theorem reassign_to_another (k : Nat) (hk : 2 ≤ k) (hfits : k ≤ 2 ^ 53) :
    (∀ (state : State Float) (g g₁ g₂ : Generator) (i d : Nat), state ≠ [] →
      g.index state.length = (i, g₁) → g₁.index (k - 1) = (d, g₂) →
        ∃ x next, state[i]? = some x ∧ d < k - 1 ∧ reassign k state g = .ok (next, g₂) ∧
          next[i]? = some (reassigned k x d) ∧ next.length = state.length ∧
          ∀ j : Nat, j ≠ i → next[j]? = state[j]?) ∧
    (∀ (x : Float) (d : Nat), d < k - 1 → ∃ t < k,
      reassigned k x d = Scalar.ofNat t ∧ (reassigned k x d).isFinite ∧
        Binary64.value (reassigned k x d) = t ∧ reassigned k x d ≠ x ∧
        ∀ m : Potts Float, m.states = k →
          m.decodeOne (reassigned k x d) = t ∧ m.decodeOne x ≠ t) ∧
    ∀ (x : Float) (c : Nat), c < k → x.isFinite → Binary64.value x = c →
      Set.BijOn (reassigned k x) {d | d < k - 1}
        ((Scalar.ofNat : Nat → Float) '' {t | t < k ∧ t ≠ c}) := by
  refine ⟨?_, ?_, ?_⟩
  · intro state g g₁ g₂ i d hstate hindex hdraw
    obtain ⟨x, hx, heq⟩ := reassign_eq_ok hk hstate hindex hdraw
    have hd : d < k - 1 := by
      have hdrawn := Generator.index_lt (n := k - 1) (by omega) g₁
      rwa [hdraw] at hdrawn
    refine ⟨x, _, hx, hd, heq, ?_, List.length_set, fun j hj => List.getElem?_set_ne hj.symm⟩
    exact List.getElem?_set_self (List.getElem?_eq_some_iff.mp hx).1
  · intro x d hd
    have hlt : otherState k (Scalar.nearest x) d < k := otherState_lt hk
    obtain ⟨hfinite, hvalue⟩ := Binary64.value_ofNat (Nat.lt_of_lt_of_le hlt hfits)
    have hmodel : ∀ m : Potts Float, m.states = k →
        m.decodeOne (reassigned k x d) = otherState k (Scalar.nearest x) d ∧
          m.decodeOne x ≠ otherState k (Scalar.nearest x) d := by
      rintro m rfl
      obtain ⟨hnew, hold⟩ := decodeOne_reassigned hk hfits hd x
      exact ⟨hnew, hnew ▸ hold⟩
    refine ⟨_, hlt, rfl, hfinite, hvalue, ?_, hmodel⟩
    intro hsame
    obtain ⟨hnew, hold⟩ := hmodel (withoutSpins k) rfl
    rw [hsame] at hnew
    exact hold hnew
  · intro x c hc hx hvalue
    exact reassigned_bijOn hfits hx hc hvalue

/-- Of four states, the first coordinate stands for none, the second for the last and the third for the
second. -/
def oddStates : State Float := [0.0 / 0.0, 7.5, 1.0]

/-- One of them is moved, and wherever it is moved to, it stands for another state then. -/
theorem reassign_to_another_odd : (∃ i d x next g',
    oddStates[i]? = some x ∧ d < 3 ∧ reassign 4 oddStates (Generator.ofSeed 11) = .ok (next, g') ∧
      next[i]? = some (reassigned 4 x d) ∧ ∀ j : Nat, j ≠ i → next[j]? = oddStates[j]?) ∧
    (∀ d < 3, ∃ t < 4, t ≠ 0 ∧ reassigned 4 (0.0 / 0.0 : Float) d = Scalar.ofNat t) ∧
    (∀ d < 3, ∃ t < 4, t ≠ 3 ∧ reassigned 4 (7.5 : Float) d = Scalar.ofNat t) ∧
    Set.BijOn (reassigned 4 (1.0 : Float)) {d | d < 3}
      ((Scalar.ofNat : Nat → Float) '' {t | t < 4 ∧ t ≠ 1}) := by
  obtain ⟨hmove, hanother, hbij⟩ := reassign_to_another 4 (by decide) (by decide)
  refine ⟨?_, ?_, ?_, ?_⟩
  · rcases hindex : (Generator.ofSeed 11).index oddStates.length with ⟨i, g₁⟩
    rcases hdraw : g₁.index (4 - 1) with ⟨d, g₂⟩
    obtain ⟨x, next, hx, hd, hnext, hnew, -, hothers⟩ :=
      hmove oddStates _ g₁ g₂ i d (List.cons_ne_nil _ _) hindex hdraw
    exact ⟨i, d, x, next, g₂, hx, hd, hnext, hnew, hothers⟩
  · intro d hd
    obtain ⟨t, ht, hnew, -, -, -, hmodel⟩ := hanother (0.0 / 0.0) d hd
    have hfirst : (withoutSpins 4).decodeOne (0.0 / 0.0) = 0 := by rfl
    exact ⟨t, ht, fun hsame => (hmodel _ rfl).2 (hfirst.trans hsame.symm), hnew⟩
  · intro d hd
    obtain ⟨t, ht, hnew, -, -, -, hmodel⟩ := hanother 7.5 d hd
    have hlast : (withoutSpins 4).decodeOne 7.5 = 3 := by rfl
    exact ⟨t, ht, fun hsame => (hmodel _ rfl).2 (hlast.trans hsame.symm), hnew⟩
  · obtain ⟨hfinite, hvalue⟩ := Binary64.value_ofNat (n := 1) (by norm_num)
    exact hbij 1.0 1 (by decide) hfinite hvalue

end ThermalSearch
