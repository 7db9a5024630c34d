import Mathlib.Algebra.BigOperators.Group.List.Basic
import Mathlib.Algebra.Order.Floor.Semiring
import Mathlib.Tactic.NormNum
import ThermalSearch.Proofs.Scalar.FiniteOrder

/-!
# Exact arithmetic

The definitions of the library read over an ordered field, such as the rational or the real
numbers: sums, products and comparisons are those of the field, every number is finite, and what
a field does not settle (powers, roots, an energy worse than any other) is left open.

Exact numbers are a type of their own, so that their operations are not taken for those of the
field; `value` leads over, and the simp lemmas here push it inwards.
-/

namespace ThermalSearch

/-- What exact arithmetic leaves open. -/
structure Uninterpreted (K : Type) where
  exp : K → K
  ln : K → K
  sqrt : K → K
  pow : K → K → K
  infinity : K
deriving Inhabited

/-- The numbers of the field `K`, as numbers to compute with. -/
@[ext]
structure Exact {K : Type} (f : Uninterpreted K) where
  value : K

namespace Exact

variable {K : Type} [Field K] [LinearOrder K] [FloorSemiring K] {f : Uninterpreted K}

instance : Scalar (Exact f) where
  add a b := ⟨a.value + b.value⟩
  sub a b := ⟨a.value - b.value⟩
  mul a b := ⟨a.value * b.value⟩
  div a b := ⟨a.value / b.value⟩
  neg a := ⟨-a.value⟩
  lt a b := a.value < b.value
  le a b := a.value ≤ b.value
  beq a b := decide (a.value = b.value)
  ofScientific mantissa negative exponent :=
    ⟨OfScientific.ofScientific mantissa negative exponent⟩
  decidableLT a b := inferInstanceAs (Decidable (a.value < b.value))
  decidableLE a b := inferInstanceAs (Decidable (a.value ≤ b.value))
  ofNat n := ⟨n⟩
  isFinite _ := true
  isNaN _ := false
  infinity := ⟨f.infinity⟩
  exp a := ⟨f.exp a.value⟩
  ln a := ⟨f.ln a.value⟩
  sqrt a := ⟨f.sqrt a.value⟩
  pow a b := ⟨f.pow a.value b.value⟩
  nearest a := ⌊a.value + 1 / 2⌋₊

@[simp] theorem value_add (a b : Exact f) : (a + b).value = a.value + b.value := rfl

@[simp] theorem value_sub (a b : Exact f) : (a - b).value = a.value - b.value := rfl

@[simp] theorem value_mul (a b : Exact f) : (a * b).value = a.value * b.value := rfl

@[simp] theorem value_div (a b : Exact f) : (a / b).value = a.value / b.value := rfl

@[simp] theorem value_neg (a : Exact f) : (-a).value = -a.value := rfl

@[simp] theorem value_ofNat (n : Nat) : (Scalar.ofNat n : Exact f).value = n := rfl

@[simp] theorem value_ofScientific (mantissa : Nat) (negative : Bool) (exponent : Nat) :
    (OfScientific.ofScientific mantissa negative exponent : Exact f).value =
      OfScientific.ofScientific mantissa negative exponent := rfl

theorem le_iff {a b : Exact f} : a ≤ b ↔ a.value ≤ b.value := Iff.rfl

theorem lt_iff {a b : Exact f} : a < b ↔ a.value < b.value := Iff.rfl

theorem isFinite_eq_true (a : Exact f) : Scalar.isFinite a = true := rfl

/-- All exact numbers are finite, and stand in the line of the field. -/
instance : FiniteOrder (Exact f) where
  lt_iff_not_le _ _ := not_le.symm
  le_total {x y} _ _ := le_total x.value y.value
  le_trans _ _ _ hxy hyz := le_trans (α := K) hxy hyz

/-- What has least energy among the candidates, when an energy is a measure of what is valid. -/
theorem least_iff {σ ε : Type} {evaluate : σ → Except ε (Exact f)} {valid : σ → Prop}
    {measure : σ → K}
    (h : ∀ s energy, evaluate s = .ok energy ↔ valid s ∧ energy.value = measure s)
    (candidate : σ → Prop) (s : σ) :
    (∃ energy, evaluate s = .ok energy ∧
      ∀ t other, candidate t → evaluate t = .ok other → energy ≤ other) ↔
    valid s ∧ ∀ t, candidate t → valid t → measure s ≤ measure t := by
  constructor
  · rintro ⟨energy, hs, hleast⟩
    obtain ⟨hvalid, henergy⟩ := (h s energy).mp hs
    refine ⟨hvalid, ?_⟩
    intro t ht htvalid
    have hle := hleast t ⟨measure t⟩ ht ((h t _).mpr ⟨htvalid, rfl⟩)
    rw [le_iff, henergy] at hle
    exact hle
  · rintro ⟨hvalid, hleast⟩
    refine ⟨⟨measure s⟩, (h s _).mpr ⟨hvalid, rfl⟩, ?_⟩
    intro t other ht hother
    obtain ⟨htvalid, hvalue⟩ := (h t other).mp hother
    rw [le_iff, hvalue]
    exact hleast t ht htvalid

/-! ## Literals -/

@[simp] theorem value_zero : (0.0 : Exact f).value = 0 := by
  rw [value_ofScientific]
  norm_num

@[simp] theorem value_one : (1.0 : Exact f).value = 1 := by
  rw [value_ofScientific]
  norm_num

@[simp] theorem value_two : (2.0 : Exact f).value = 2 := by
  rw [value_ofScientific]
  norm_num

@[simp] theorem value_four : (4.0 : Exact f).value = 4 := by
  rw [value_ofScientific]
  norm_num

/-- A share is zero, as in the field, when there was nothing to count. -/
theorem value_fraction (count total : Nat) :
    (Scalar.fraction count total : Exact f).value = count / total := by
  unfold Scalar.fraction
  split
  next hnone => rw [value_zero, hnone, Nat.cast_zero, div_zero]
  next => rfl

/-! ## Sums -/

omit [LinearOrder K] [FloorSemiring K] in
/-- A loop that adds a gain in each pass adds the sum of the gains: without rounding, the order of
the summands does not matter. -/
theorem value_foldl {β : Type} {body : Exact f → β → Exact f} {gain : β → K} {l : List β}
    (h : ∀ a, ∀ b ∈ l, (body a b).value = a.value + gain b) (a : Exact f) :
    (l.foldl body a).value = a.value + (l.map gain).sum := by
  induction l generalizing a with
  | nil => simp
  | cons b l ih =>
    rw [List.foldl_cons, ih fun a c hc => h a c (List.mem_cons_of_mem b hc),
      h a b List.mem_cons_self, List.map_cons, List.sum_cons, add_assoc]

theorem value_foldl_add (xs : List (Exact f)) (a : Exact f) :
    (xs.foldl (· + ·) a).value = a.value + (xs.map value).sum :=
  value_foldl (fun _ _ _ => rfl) a

theorem value_sum (xs : List (Exact f)) :
    (Scalar.sum xs).value = (xs.map value).sum := by
  unfold Scalar.sum
  rw [value_foldl_add, value_neg, value_zero, neg_zero, zero_add]

end Exact

end ThermalSearch
