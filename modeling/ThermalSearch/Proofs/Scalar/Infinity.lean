import ThermalSearch.Proofs.Scalar.Rounding
import ThermalSearch.Random.Generator

/-!
# Infinities in binary floating point

A float that is not finite is an infinity with a sign, or undefined (`not_finite_cases`). Subtracting an
infinity from something finite turns its sign over (`sub_infinite`), and a factor keeps or turns its
sign by its own: what is neither positive nor negative leaves nothing defined (`mul_infinite_cases`).

A uniform number is drawn as a quotient of counts and is not negative (`not_unit_lt_zero`), so a chance
of zero never comes true.
-/

namespace ThermalSearch.Binary64

open Float.Model Float.Model.UnpackedFloat

/-- The infinity of a sign. -/
def infinite : Sign → Float
  | .positive => Scalar.infinity
  | .negative => -Scalar.infinity

theorem unpack_infinite (s : Sign) : (infinite s).toModel.unpack = .infinity s := by
  cases s <;> rfl

theorem pack_infinite (s : Sign) : Float.ofModel (Float.Model.pack (.infinity s)) = infinite s := by
  cases s <;> rfl

theorem not_finite_cases {x : Float} (hx : ¬ x.isFinite) : (∃ s, x = infinite s) ∨ x.isNaN := by
  have hx' : ¬ x.toModel.unpack.isFinite := hx
  cases hunpack : x.toModel.unpack with
  | infinity s =>
    refine Or.inl ⟨s, ?_⟩
    rw [← pack_infinite, ← hunpack, pack_unpack_model]
  | notANumber =>
    refine Or.inr ?_
    show x.toModel.unpack.isNaN = true
    rw [hunpack]
    rfl
  | zero s => exact absurd (by rw [hunpack]; rfl) hx'
  | finite s m e hm => exact absurd (by rw [hunpack]; rfl) hx'

theorem isNaN_pack : (Float.ofModel (Float.Model.pack .notANumber)).isNaN := by rfl

theorem unpack_of_isNaN {x : Float} (hx : x.isNaN) : x.toModel.unpack = .notANumber := by
  have hx' : x.toModel.unpack.isNaN = true := hx
  cases hunpack : x.toModel.unpack <;> simp [hunpack, UnpackedFloat.isNaN] at hx' ⊢

theorem neg_neg_sign (s : Sign) : - -s = s := by
  cases s <;> rfl

theorem neg_eq_positive_iff (s : Sign) : -s = .positive ↔ s = .negative := by
  cases s with
  | positive => exact iff_of_false nofun nofun
  | negative => exact iff_of_true rfl rfl

/-! ## Comparisons with zero -/

theorem zero_lt_iff {x : Float} :
    0.0 < x ↔ (UnpackedFloat.zero .positive).lt x.toModel.unpack = true := FloatOrder.lt_iff_unpack

theorem lt_zero_iff {x : Float} :
    x < 0.0 ↔ x.toModel.unpack.lt (.zero .positive) = true := FloatOrder.lt_iff_unpack

theorem zero_lt_infinite_iff (s : Sign) : 0.0 < infinite s ↔ s = .positive := by
  rw [zero_lt_iff, unpack_infinite]
  cases s <;> simp [UnpackedFloat.lt, UnpackedFloat.compare]

theorem infinite_lt_zero_iff (s : Sign) : infinite s < 0.0 ↔ s = .negative := by
  rw [lt_zero_iff, unpack_infinite]
  cases s <;> simp [UnpackedFloat.lt, UnpackedFloat.compare]

theorem not_lt_of_isNaN {x : Float} (hx : x.isNaN) (y : Float) : ¬ y < x ∧ ¬ x < y := by
  rw [FloatOrder.lt_iff_unpack, FloatOrder.lt_iff_unpack, unpack_of_isNaN hx]
  cases y.toModel.unpack <;> simp [UnpackedFloat.lt, UnpackedFloat.compare]

/-! ## Operations -/

theorem sub_infinite {x : Float} (hx : x.isFinite) (s : Sign) :
    x - infinite s = infinite (-s) := by
  have hx' : x.toModel.unpack.isFinite := hx
  have hdifference : x - infinite s = Float.ofModel (Float.Model.pack
      (UnpackedFloat.sub Format.binary64 x.toModel.unpack (.infinity s))) := by
    rw [← unpack_infinite]
    rfl
  rw [hdifference, ← pack_infinite]
  cases hunpack : x.toModel.unpack with
  | infinity s' => simp [hunpack, UnpackedFloat.isFinite] at hx'
  | notANumber => simp [hunpack, UnpackedFloat.isFinite] at hx'
  | zero s' => rfl
  | finite s' m e hm => rfl

theorem infinite_sub {x : Float} (hx : x.isFinite) (s : Sign) : infinite s - x = infinite s := by
  have hdifference : infinite s - x = Float.ofModel (Float.Model.pack
      (UnpackedFloat.sub Format.binary64 (.infinity s) x.toModel.unpack)) := by
    rw [← unpack_infinite]
    rfl
  rw [hdifference, ← pack_infinite]
  rcases unpack_of_finite hx with ⟨t, hunpack⟩ | ⟨t, m, e, hm, hunpack, -⟩ <;>
    rw [hunpack] <;> rfl

theorem add_infinite {x : Float} (hx : x.isFinite) (s : Sign) : x + infinite s = infinite s := by
  have hsum : x + infinite s = Float.ofModel (Float.Model.pack
      (UnpackedFloat.add Format.binary64 x.toModel.unpack (.infinity s))) := by
    rw [← unpack_infinite]
    rfl
  rw [hsum, ← pack_infinite]
  rcases unpack_of_finite hx with ⟨t, hunpack⟩ | ⟨t, m, e, hm, hunpack, -⟩ <;>
    rw [hunpack] <;> rfl

/-- An operation is undefined if it is on the unpacked numbers. -/
theorem isNaN_of_pack {x : Float} {u : UnpackedFloat} (hx : x = Float.ofModel (Float.Model.pack u))
    (hu : u = .notANumber) : x.isNaN := by
  rw [hx, hu]
  exact isNaN_pack

theorem isNaN_sub {x y : Float} (hy : y.isNaN) : (x - y).isNaN := by
  refine isNaN_of_pack (u := .sub Format.binary64 x.toModel.unpack y.toModel.unpack) rfl ?_
  rw [unpack_of_isNaN hy]
  cases x.toModel.unpack <;> rfl

theorem isNaN_add {x y : Float} (hy : y.isNaN) : (x + y).isNaN := by
  refine isNaN_of_pack (u := .add Format.binary64 x.toModel.unpack y.toModel.unpack) rfl ?_
  rw [unpack_of_isNaN hy]
  cases x.toModel.unpack <;> rfl

theorem isNaN_mul {x y : Float} (hy : y.isNaN) : (x * y).isNaN := by
  refine isNaN_of_pack (u := .mul Format.binary64 x.toModel.unpack y.toModel.unpack) rfl ?_
  rw [unpack_of_isNaN hy]
  cases x.toModel.unpack <;> rfl

theorem isNaN_mul_left {x : Float} (hx : x.isNaN) (y : Float) : (x * y).isNaN := by
  refine isNaN_of_pack (u := .mul Format.binary64 x.toModel.unpack y.toModel.unpack) rfl ?_
  rw [unpack_of_isNaN hx]
  rfl

/-- What a factor makes of an infinity. The factor may be infinite or undefined itself. -/
theorem mul_infinite_cases (x : Float) (s : Sign) :
    (0.0 < x ∧ ¬ x < 0.0 ∧ x * infinite s = infinite s) ∨
      (x < 0.0 ∧ ¬ 0.0 < x ∧ x * infinite s = infinite (-s)) ∨
      (¬ 0.0 < x ∧ ¬ x < 0.0 ∧ (x * infinite s).isNaN) := by
  have hproduct : x * infinite s = Float.ofModel (Float.Model.pack
      (UnpackedFloat.mul Format.binary64 x.toModel.unpack (.infinity s))) := by
    rw [← unpack_infinite]
    rfl
  rw [zero_lt_iff, lt_zero_iff, hproduct, ← pack_infinite, ← pack_infinite]
  cases x.toModel.unpack with
  | notANumber => exact Or.inr (Or.inr ⟨by decide, by decide, isNaN_pack⟩)
  | zero s' =>
    refine Or.inr (Or.inr ⟨?_, ?_, isNaN_pack⟩)
    · simp [UnpackedFloat.lt, UnpackedFloat.compare]
    · simp [UnpackedFloat.lt, UnpackedFloat.compare]
  | infinity s' =>
    cases s' with
    | positive => exact Or.inl ⟨by decide, by decide, by cases s <;> rfl⟩
    | negative => exact Or.inr (Or.inl ⟨by decide, by decide, by cases s <;> rfl⟩)
  | finite s' m e hm =>
    cases s' with
    | positive =>
      refine Or.inl ⟨rfl, ?_, by cases s <;> rfl⟩
      simp [UnpackedFloat.lt, UnpackedFloat.compare]
    | negative =>
      refine Or.inr (Or.inl ⟨rfl, ?_, by cases s <;> rfl⟩)
      simp [UnpackedFloat.lt, UnpackedFloat.compare]

/-! ## Uniform numbers -/

theorem Normal.not_lt_zero {x : Float} (hx : Normal x) : ¬ x < 0.0 := by
  have hzero : (0.0 : Float).isFinite := by rfl
  rw [lt_iff_value_lt hx.finite hzero, value_zero]
  exact hx.pos.not_gt

/-- The share of a count in another is in the normal range, unless it is zero. -/
theorem quotient_cases {k n : Nat} (hk : k < 2 ^ 64) (hn : 0 < n) (hn' : n < 2 ^ 64) :
    (Scalar.ofNat k / Scalar.ofNat n : Float) = 0.0 ∨
      Normal (Scalar.ofNat k / Scalar.ofNat n) := by
  have hwhole := near_count hn hn'
  rcases Nat.eq_zero_or_pos k with rfl | hpos
  · have hzero : (Scalar.ofNat 0 : Float) = 0.0 := by rfl
    rw [hzero]
    exact Or.inl (zero_div_of_pos hwhole.finite hwhole.pos)
  · have hpart := near_count hpos hk
    have hone : (1 : ℝ) ≤ k := by exact_mod_cast hpos
    have hone' : (1 : ℝ) ≤ n := by exact_mod_cast hn
    have hsize : (k : ℝ) ≤ 2 ^ 64 := by exact_mod_cast hk.le
    have hsize' : (n : ℝ) ≤ 2 ^ 64 := by exact_mod_cast hn'.le
    obtain ⟨hlow, hhigh⟩ := hpart.bounds (by linarith) (by norm_num)
    obtain ⟨hlow', hhigh'⟩ := hwhole.bounds (by linarith) (by norm_num)
    have hratio : 2 * leastNormal ≤
        value (Scalar.ofNat k : Float) / value (Scalar.ofNat n : Float) := by
      calc 2 * leastNormal ≤ 2 ^ (-66 : ℤ) := two_mul_leastNormal_le (by norm_num)
        _ = 1 / 2 / (2 * 2 ^ 64) := by norm_num
        _ ≤ value (Scalar.ofNat k : Float) / value (Scalar.ofNat n : Float) :=
          div_le_div₀ hpart.pos.le (by linarith) hwhole.pos (by linarith)
    have hratio' : value (Scalar.ofNat k : Float) / value (Scalar.ofNat n : Float) <
        greatest := by
      calc value (Scalar.ofNat k : Float) / value (Scalar.ofNat n : Float)
          ≤ 2 * 2 ^ 64 / (1 / 2) :=
            div_le_div₀ (by norm_num) (by linarith) (by norm_num) (by linarith)
        _ = 2 ^ (66 : ℤ) := by norm_num
        _ < greatest := zpow_lt_greatest (by norm_num)
    rcases near_div hpart.toNormal hwhole.toNormal hratio with hnear | ⟨-, hover⟩
    · exact Or.inr hnear.toNormal
    · exact absurd hratio' hover.not_gt

theorem not_unit_lt_zero (g : Generator) : ¬ (g.unit : Float × Generator).1 < 0.0 := by
  have hword : (g.word.1 >>> 11).toNat < 2 ^ 64 := UInt64.toNat_lt _
  have hunit : (g.unit : Float × Generator).1 =
      Scalar.ofNat (g.word.1 >>> 11).toNat / Scalar.ofNat (1 <<< 53) := rfl
  rw [hunit]
  rcases quotient_cases hword (n := 1 <<< 53) (by decide) (by decide) with hzero | hnormal
  · rw [hzero]
    decide
  · exact hnormal.not_lt_zero

/-! ## Elementary functions -/

/-- The functions that floating point does not define to the last bit. -/
structure Elementary where
  exp : Float → Float
  ln : Float → Float
  pow : Float → Float → Float

/-- The elementary functions of the machine. -/
def Elementary.machine : Elementary where
  exp := Float.exp
  ln := Float.log
  pow := Float.pow

/-- Binary floating point whose elementary functions are given. -/
def Rounded (_ : Elementary) : Type := Float

instance (f : Elementary) : Scalar (Rounded f) :=
  { (inferInstance : Scalar Float) with exp := f.exp, ln := f.ln, pow := f.pow }

/-- With the functions of the machine it is the arithmetic of the machine. -/
theorem scalar_machine :
    (inferInstance : Scalar (Rounded .machine)) = (inferInstance : Scalar Float) := rfl

/-- The order of the finite numbers does not depend on the elementary functions. -/
instance (f : Elementary) : FiniteOrder (Rounded f) where
  lt_iff_not_le := FloatOrder.finiteOrder.lt_iff_not_le
  le_total := FloatOrder.finiteOrder.le_total
  le_trans := FloatOrder.finiteOrder.le_trans

end ThermalSearch.Binary64
