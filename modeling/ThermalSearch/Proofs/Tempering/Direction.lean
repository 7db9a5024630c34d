import ThermalSearch.Proofs.Scalar.Operations
import ThermalSearch.Proofs.Tempering.Adaptation

/-!
# Where a rung with rare exchanges goes

A rung whose exchanges are rare is drawn towards the root of the product of its neighbours, a tenth of
the way. Rounding to nearest keeps the order of numbers at every step of the calculation, so the rung
goes up if its square is less than the product as it is rounded, and else down (`le_drawn`, `drawn_le`).

For a product in the normal range this is the direction of the true mean. Rounding may take the product
past the square of the rung, but then the rung is so near to the mean that a tenth of the way is lost in
rounding, and it stays (`value_drawn_of_near`). A product that underflows to zero draws the rung down,
wherever the mean is, and one that overflows does not move it. All of this holds of every rung of a
ladder (`directed_adapt`).
-/

namespace ThermalSearch

namespace Binary64

/-! ## A tenth of the way -/

/-- The part of the way that a rung goes is a normal number and at most an eighth. -/
theorem value_stride : 0 < value Ladder.stride ∧ value Ladder.stride ≤ 2 ^ (-3 : ℤ) := by
  have hunpack : (Ladder.stride : Float).toModel.unpack =
      .finite .positive 7205759403792794 (-56) (by norm_num) := by rfl
  rw [value_of_unpack hunpack]
  norm_num

end Binary64

namespace Ladder

open Binary64

/-- Where a rung that is drawn gets to, if its neighbours let it. -/
def drawn (t goal : Float) : Float := t + stride * (goal - t)

variable {t goal : Float}

/-- What a rung moves by, up to rounding. -/
structure Pull (t goal : Float) : Prop where
  way : IsRounded (goal - t) (value goal - value t)
  wayFinite : (goal - t).isFinite
  part : IsRounded (stride * (goal - t)) (value stride * value (goal - t))
  partFinite : (stride * (goal - t)).isFinite
  place : IsRounded (drawn t goal) (value t + value (stride * (goal - t)))

theorem pull (ht : Positive t) (hgoal : goal.isFinite) (hnonneg : 0 ≤ value goal) :
    Pull t goal := by
  have hway := isRounded_sub hgoal ht.finite
  have hwayFinite : (goal - t).isFinite := by
    refine hway.finite ?_
    have hhigh := value_le_greatest hgoal
    have hhigh' := value_le_greatest ht.finite
    have hpos := ht.pos
    rw [abs_le]
    constructor <;> linarith
  have hstride : (stride : Float).isFinite := by rfl
  have hpart := isRounded_mul hstride hwayFinite
  have hpartFinite : (stride * (goal - t)).isFinite := by
    refine hpart.finite ?_
    have hone : |value (stride : Float)| ≤ 1 := by
      rw [abs_of_pos value_stride.1]
      exact value_stride.2.trans (by norm_num)
    rw [abs_mul]
    calc |value stride| * |value (goal - t)| ≤ 1 * |value (goal - t)| := by gcongr
      _ = |value (goal - t)| := one_mul _
      _ ≤ greatest := abs_value_le_greatest hwayFinite
  exact ⟨hway, hwayFinite, hpart, hpartFinite, isRounded_add ht.finite hpartFinite⟩

/-- Rounding keeps the order, so a goal above draws up. -/
theorem le_drawn (h : Pull t goal) (ht : Positive t) (hplace : (drawn t goal).isFinite)
    (hle : value t ≤ value goal) : value t ≤ value (drawn t goal) := by
  have hway : 0 ≤ value (goal - t) :=
    (h.way.nearest h.wayFinite).le_of_ge onGrid_zero (sub_nonneg.mpr hle)
  have hpart : 0 ≤ value (stride * (goal - t)) :=
    (h.part.nearest h.partFinite).le_of_ge onGrid_zero (mul_nonneg value_stride.1.le hway)
  exact (h.place.nearest hplace).le_of_ge (onGrid_value ht.finite) (le_add_of_nonneg_right hpart)

/-- And a goal below draws down. -/
theorem drawn_le (h : Pull t goal) (ht : Positive t) (hplace : (drawn t goal).isFinite)
    (hle : value goal ≤ value t) : value (drawn t goal) ≤ value t := by
  have hway : value (goal - t) ≤ 0 :=
    (h.way.nearest h.wayFinite).le_of_le onGrid_zero (sub_nonpos.mpr hle)
  have hpart : value (stride * (goal - t)) ≤ 0 :=
    (h.part.nearest h.partFinite).le_of_le onGrid_zero
      (mul_nonpos_of_nonneg_of_nonpos value_stride.1.le hway)
  exact (h.place.nearest hplace).le_of_le (onGrid_value ht.finite) (add_le_of_nonpos_right hpart)

/-- A part of a number that is not too small is on the grid. -/
theorem onGrid_part (ht : t.isFinite) (hlow : 2 ^ (-900 : ℤ) ≤ value t) {k : ℤ} (hk : -60 ≤ k) :
    OnGrid (2 ^ k * value t) := by
  obtain ⟨m, e, hm, hunpack, hcanonical⟩ :=
    unpack_of_pos ht ((zpow_pos (by norm_num) _).trans_le hlow)
  rw [value_of_unpack hunpack] at hlow ⊢
  have hexponent : -900 < 53 + e := by
    have hm' : (m : ℝ) < 2 ^ 53 := by exact_mod_cast hcanonical.mantissa_lt
    refine (zpow_lt_zpow_iff_right₀ (by norm_num : (1 : ℝ) < 2)).mp (hlow.trans_lt ?_)
    have hsum : (2 : ℝ) ^ (53 + e) = 2 ^ 53 * 2 ^ e := by
      rw [zpow_add₀ (by norm_num)]
      norm_num
    rw [hsum]
    gcongr
  have hsum : 2 ^ k * ((m : ℝ) * 2 ^ e) = m * 2 ^ (k + e) := by
    rw [zpow_add₀ (by norm_num)]
    ring
  rw [hsum]
  exact onGrid_mul_zpow hcanonical.mantissa_lt.le (by omega)

/-- A goal within a few units of the last place does not move a rung. -/
theorem value_drawn_of_near (h : Pull t goal) (ht : Positive t) (hplace : (drawn t goal).isFinite)
    (hlow : 2 ^ (-900 : ℤ) ≤ value t)
    (hnear : |value goal - value t| ≤ 2 ^ (-52 : ℤ) * value t) :
    value (drawn t goal) = value t := by
  have hpos := ht.pos
  have hhigh : value t ≤ greatest := value_le_greatest ht.finite
  have hbound {k : ℤ} (hk : k ≤ 0) : 2 ^ k * value t ≤ greatest := by
    refine le_trans ?_ hhigh
    exact mul_le_of_le_one_left hpos.le (zpow_le_one_of_nonpos₀ (by norm_num) hk)
  have hway : |value (goal - t)| ≤ 2 ^ (-52 : ℤ) * value t :=
    (h.way.bounded (onGrid_part ht.finite hlow (by norm_num)) (hbound (by norm_num)) hnear).2
  have hpart : |value (stride * (goal - t))| ≤ 2 ^ (-55 : ℤ) * value t := by
    refine (h.part.bounded (onGrid_part ht.finite hlow (by norm_num)) (hbound (by norm_num)) ?_).2
    rw [abs_mul, abs_of_pos value_stride.1]
    calc value stride * |value (goal - t)| ≤ 2 ^ (-3 : ℤ) * (2 ^ (-52 : ℤ) * value t) :=
          mul_le_mul value_stride.2 hway (abs_nonneg _) (by positivity)
      _ = 2 ^ (-55 : ℤ) * value t := by
          rw [← mul_assoc, ← zpow_add₀ (by norm_num)]
          norm_num
  -- the rung itself is as near to where it is drawn to as this part is long
  by_contra hmoved
  have hnearest := (h.place.nearest hplace).le _ (onGrid_value ht.finite)
  have hnormal : Normal t := by
    refine ⟨ht.finite, le_trans ?_ hlow⟩
    rw [leastNormal_eq]
    exact zpow_le_zpow_right₀ (by norm_num) (by norm_num)
  have hgap := hnormal.gap (onGrid_value hplace) hmoved
  rw [abs_sub_comm (value t), add_sub_cancel_left] at hnearest
  have htriangle : |value (drawn t goal) - value t| ≤ 2 * |value (stride * (goal - t))| := by
    have hsplit : value (drawn t goal) - value t =
        (value (drawn t goal) - (value t + value (stride * (goal - t)))) +
          value (stride * (goal - t)) := by ring
    rw [hsplit]
    refine (abs_add_le _ _).trans ?_
    linarith
  have hquarter : (2 : ℝ) * (2 ^ (-55 : ℤ) * value t) < 2 ^ (-53 : ℤ) * value t := by
    rw [← mul_assoc]
    refine mul_lt_mul_of_pos_right ?_ hpos
    norm_num
  linarith

/-! ## The mean of the neighbours -/

variable {low high : Float}

/-- A product that does not overflow has a root that does not. -/
theorem isRounded_root (hlow : Positive low) (hhigh : Positive high)
    (hproduct : (low * high).isFinite) :
    0 ≤ value (low * high) ∧ (low * high).sqrt.isFinite ∧
      IsRounded (low * high).sqrt √(value (low * high)) := by
  have hnonneg : 0 ≤ value (low * high) :=
    ((isRounded_mul hlow.finite hhigh.finite).nearest hproduct).le_of_ge onGrid_zero
      (mul_pos hlow.pos hhigh.pos).le
  have hroot := isRounded_sqrt hproduct hnonneg
  refine ⟨hnonneg, hroot.finite ?_, hroot⟩
  have hone : 1 ≤ greatest := (zpow_lt_greatest (by norm_num : (0 : ℤ) ≤ 1023)).le
  have hbound : value (low * high) ≤ greatest := value_le_greatest hproduct
  rw [abs_of_nonneg (Real.sqrt_nonneg _), Real.sqrt_le_left (by linarith)]
  nlinarith

/-- Three numbers that are near to each other have roots that are. -/
theorem abs_root_sub_le {p u s product : ℝ} (hp : 0 ≤ p) (hs : 0 < s) (hu : u ≤ 1 / 8)
    (hproduct : 0 < product) (hround : |p - product| ≤ u * product)
    (hbetween : |s ^ 2 - product| ≤ u * product) (hrest : |p - s ^ 2| ≤ u * product) :
    |√p - s| ≤ u * s := by
  have hsquare : √p * √p = p := Real.mul_self_sqrt hp
  have hroot : 0 ≤ √p := Real.sqrt_nonneg p
  have hu0 : 0 ≤ u := by
    by_contra hneg
    have hless := (abs_nonneg _).trans hround
    nlinarith
  rw [abs_le] at hround hbetween
  have hhalf : s ≤ 2 * √p := by
    by_contra hless
    nlinarith
  have hreach : product ≤ (√p + s) * s := by nlinarith
  have hfactor : |p - s ^ 2| = |√p - s| * (√p + s) := by
    have hdifference : p - s ^ 2 = (√p - s) * (√p + s) := by linarith
    rw [hdifference, abs_mul, abs_of_pos (by linarith : 0 < √p + s)]
  rw [hfactor] at hrest
  refine le_of_mul_le_mul_right ?_ (by linarith : 0 < √p + s)
  calc |√p - s| * (√p + s) ≤ u * product := hrest
    _ ≤ u * ((√p + s) * s) := by gcongr
    _ = u * s * (√p + s) := by ring

/-- The root is on the same side of a number as the product is of its square. -/
theorem value_root_cases (hlow : Positive low) (hhigh : Positive high) (ht : Positive t)
    (hproduct : (low * high).isFinite) :
    (value t ^ 2 < value (low * high) → value t ≤ value (low * high).sqrt) ∧
      (value (low * high) ≤ value t ^ 2 → value (low * high).sqrt ≤ value t) := by
  obtain ⟨-, hfinite, hroot⟩ := isRounded_root hlow hhigh hproduct
  constructor
  · intro hlt
    exact (hroot.nearest hfinite).le_of_ge (onGrid_value ht.finite) (Real.le_sqrt_of_sq_le hlt.le)
  · intro hle
    exact (hroot.nearest hfinite).le_of_le (onGrid_value ht.finite)
      ((Real.sqrt_le_left ht.pos.le).mpr hle)

/-- A number whose square is near to a normal number is not too small. -/
theorem le_of_sq_near {s product : ℝ} (hs : 0 < s) (hnormal : leastNormal ≤ product)
    (hnear : |s ^ 2 - product| ≤ 2 ^ (-53 : ℤ) * product) : 2 ^ (-900 : ℤ) ≤ s := by
  by_contra hless
  have hsquare : s ^ 2 < 2 ^ (-1 : ℤ) * leastNormal := by
    refine (pow_lt_pow_left₀ (not_le.mp hless) hs.le (by norm_num)).trans_le ?_
    rw [leastNormal_eq, ← zpow_natCast, ← zpow_mul, ← zpow_add₀ (by norm_num)]
    exact zpow_le_zpow_right₀ (by norm_num) (by norm_num)
  have hunit : (2 : ℝ) ^ (-53 : ℤ) * product ≤ 2 ^ (-1 : ℤ) * product := by
    refine mul_le_mul_of_nonneg_right ?_ (leastNormal_pos.le.trans hnormal)
    exact zpow_le_zpow_right₀ (by norm_num) (by norm_num)
  have hhalf : (2 : ℝ) ^ (-1 : ℤ) = 1 / 2 := by norm_num
  rw [hhalf] at hsquare hunit
  have hlow := (abs_le.mp hnear).1
  generalize (2 : ℝ) ^ (-53 : ℤ) * product = error at *
  linarith

/-- What a number goes past when it changes is between what it was and what it is. -/
theorem abs_sub_of_past {p product square bound : ℝ} (h : |p - product| ≤ bound)
    (hpast : ¬ (square < p ↔ square < product)) :
    |square - product| ≤ bound ∧ |p - square| ≤ bound := by
  rw [abs_le] at h
  rw [abs_le, abs_le]
  rcases lt_or_ge square p with hrounded | hrounded <;>
    rcases lt_or_ge square product with hexact | hexact
  · exact absurd (iff_of_true hrounded hexact) hpast
  · constructor <;> constructor <;> linarith
  · constructor <;> constructor <;> linarith
  · exact absurd (iff_of_false hrounded.not_gt hexact.not_gt) hpast

/-- If rounding takes a product in the normal range past the square of a rung, the root is rounded to
something near to the rung. -/
theorem value_root_near (hlow : Positive low) (hhigh : Positive high) (ht : Positive t)
    (hproduct : (low * high).isFinite) (hnormal : leastNormal ≤ value low * value high)
    (hpast : ¬ (value t ^ 2 < value (low * high) ↔ value t ^ 2 < value low * value high)) :
    2 ^ (-900 : ℤ) ≤ value t ∧
      |value (low * high).sqrt - value t| ≤ 2 ^ (-52 : ℤ) * value t := by
  obtain ⟨hnonneg, hfinite, hroot⟩ := isRounded_root hlow hhigh hproduct
  have hpos : 0 < value low * value high := mul_pos hlow.pos hhigh.pos
  have herror := ((isRounded_mul hlow.finite hhigh.finite).nearest hproduct).error
  have hsmall : (2 : ℝ) ^ (-1075 : ℤ) ≤ 2 ^ (-53 : ℤ) * (value low * value high) := by
    refine le_trans ?_ (mul_le_mul_of_nonneg_left hnormal (by positivity))
    rw [leastNormal_eq, ← zpow_add₀ (by norm_num)]
    norm_num
  rw [abs_of_pos hpos, max_eq_left hsmall] at herror
  obtain ⟨hbetween, hrest⟩ := abs_sub_of_past herror hpast
  refine ⟨le_of_sq_near ht.pos hnormal hbetween, ?_⟩
  have hnear := abs_root_sub_le hnonneg ht.pos (by norm_num) hpos herror hbetween hrest
  -- nor is the rung any nearer to the exact root than the rounded one
  have hnearest := (hroot.nearest hfinite).le _ (onGrid_value ht.finite)
  rw [abs_sub_comm (value t)] at hnearest
  have hsplit : value (low * high).sqrt - value t =
      (value (low * high).sqrt - √(value (low * high))) +
        (√(value (low * high)) - value t) := by ring
  have hdouble : (2 : ℝ) ^ (-52 : ℤ) * value t = 2 * (2 ^ (-53 : ℤ) * value t) := by
    rw [← mul_assoc, ← zpow_one_add₀ (by norm_num)]
    norm_num
  rw [hsplit, hdouble]
  refine (abs_add_le _ _).trans ?_
  linarith

/-- A product that underflows is rounded to zero. -/
theorem value_product_of_underflow (hlow : Positive low) (hhigh : Positive high)
    (hsmall : value low * value high < 2 ^ (-1075 : ℤ)) (hproduct : (low * high).isFinite) :
    value (low * high) = 0 := by
  have hpos : 0 < value low * value high := mul_pos hlow.pos hhigh.pos
  have hnearest := (isRounded_mul hlow.finite hhigh.finite).nearest hproduct
  have hnonneg : 0 ≤ value (low * high) := hnearest.le_of_ge onGrid_zero hpos.le
  -- zero is nearer than any other number on the grid
  have hzero := hnearest.le 0 onGrid_zero
  rw [zero_sub, abs_neg, abs_of_pos hpos] at hzero
  by_contra hnonzero
  have hleast := (onGrid_value hproduct).least_le (lt_of_le_of_ne hnonneg (Ne.symm hnonzero))
  have hdouble : (2 : ℝ) ^ (-1074 : ℤ) = 2 * 2 ^ (-1075 : ℤ) := by
    rw [← zpow_one_add₀ (by norm_num)]
    norm_num
  rw [hdouble] at hleast
  linarith [(abs_le.mp hzero).2]

/-- A product that overflows draws a rung beyond all others. -/
theorem drawn_of_overflow (hlow : Positive low) (hhigh : Positive high) (ht : Positive t)
    (hproduct : ¬ (low * high).isFinite) : drawn t (low * high).sqrt = Scalar.infinity := by
  have hinfinite : low * high = infinite .positive :=
    ((onSide_of_pos hlow.zero_lt).mul (onSide_of_pos hhigh.zero_lt) hlow.finite
      hhigh.finite).eq_infinite hproduct
  have hroot : (infinite .positive).sqrt = infinite .positive := by rfl
  have hpart : stride * infinite .positive = infinite .positive :=
    mul_infinity_of_pos (by rfl) value_stride.1
  rw [hinfinite, hroot, drawn, infinite_sub ht.finite, hpart, add_infinite ht.finite]
  rfl

/-! ## One rung -/

/-- Which way a rung goes from `t` to `t'` when exchanges with its neighbours are rare. -/
structure Directed (low t high t' : Float) : Prop where
  /-- It stays when the product of its neighbours overflows. -/
  overflow : ¬ (low * high).isFinite → t' = t
  /-- It goes up when its square is less than the product as it is rounded. -/
  rounded : t' ≠ t → (t < t' ↔ value t ^ 2 < value (low * high))
  /-- It goes up when it is less than the true mean, if the product is in the normal range. -/
  exact : leastNormal ≤ value low * value high → t' ≠ t →
    (t < t' ↔ value t ^ 2 < value low * value high)
  /-- It goes down when the product underflows. -/
  underflow : value low * value high < 2 ^ (-1075 : ℤ) → t' ≠ t → t' < t

theorem Directed.stays {low t high : Float} : Directed low t high t :=
  ⟨fun _ => rfl, fun hmoved => absurd rfl hmoved, fun _ hmoved => absurd rfl hmoved,
    fun _ hmoved => absurd rfl hmoved⟩

/-- What a rung with rare exchanges that moves has gone through. -/
theorem relocate?_rare {low t high rate t' : Float} (hrare : rate < targetRate - tolerance)
    (h : relocate? low t high rate = some t') :
    t' = drawn t (low * high).sqrt ∧ low < t' ∧ t' < high ∧ (t' != t) = true := by
  obtain ⟨habove, hbelow, hmoved⟩ := relocate?_eq_some h
  refine ⟨?_, habove, hbelow, hmoved⟩
  have hgoal : goal? low t high rate = some (low * high).sqrt := if_pos hrare
  unfold relocate? at h
  rw [hgoal] at h
  dsimp only at h
  split at h
  next => exact (Option.some.inj h).symm
  next => cases h

theorem directed_relocate {rate : Float} (hlow : Positive low) (ht : Positive t)
    (hhigh : Positive high) (hrare : rate < targetRate - tolerance) :
    Directed low t high ((relocate? low t high rate).getD t) := by
  cases hplace : relocate? low t high rate with
  | none => exact .stays
  | some t' =>
    obtain ⟨hdrawn, habove, hbelow, hne⟩ := relocate?_rare hrare hplace
    have ht' : Positive t' := .of_between hlow hhigh habove hbelow
    have hproduct : (low * high).isFinite := by
      by_contra hover
      rw [hdrawn, drawn_of_overflow hlow hhigh ht hover] at hbelow
      exact not_infinity_lt hhigh.finite hbelow
    have hmoved : value t' ≠ value t := by
      intro hsame
      rw [bne, beq_of_value_eq ht'.finite ht.finite hsame] at hne
      cases hne
    obtain ⟨hnonneg, hgoal, hroot⟩ := isRounded_root hlow hhigh hproduct
    have hpull : Pull t (low * high).sqrt :=
      pull ht hgoal ((hroot.nearest hgoal).le_of_ge onGrid_zero (Real.sqrt_nonneg _))
    obtain ⟨hup, hdown⟩ := value_root_cases hlow hhigh ht hproduct
    have hfinite : (drawn t (low * high).sqrt).isFinite := hdrawn ▸ ht'.finite
    have hrounded : value t < value t' ↔ value t ^ 2 < value (low * high) := by
      rw [hdrawn] at hmoved ⊢
      constructor
      · intro hgoes
        by_contra hless
        exact hgoes.not_ge (drawn_le hpull ht hfinite (hdown (not_lt.mp hless)))
      · intro hless
        exact lt_of_le_of_ne (le_drawn hpull ht hfinite (hup hless)) hmoved.symm
    simp only [Option.getD_some]
    refine ⟨fun hover => absurd hproduct hover, fun _ => ?_, fun hnormal _ => ?_,
      fun hsmall _ => ?_⟩
    · rw [lt_iff_value_lt ht.finite ht'.finite]
      exact hrounded
    · rw [lt_iff_value_lt ht.finite ht'.finite, hrounded]
      by_contra hpast
      obtain ⟨hlarge, hnear⟩ := value_root_near hlow hhigh ht hproduct hnormal hpast
      rw [hdrawn] at hmoved
      exact hmoved (value_drawn_of_near hpull ht hfinite hlarge hnear)
    · rw [lt_iff_value_lt ht'.finite ht.finite]
      rw [value_product_of_underflow hlow hhigh hsmall hproduct] at hrounded
      refine lt_of_le_of_ne (not_lt.mp fun hgoes => ?_) hmoved
      exact absurd (hrounded.mp hgoes) (sq_nonneg _).not_gt

/-! ## All rungs -/

theorem exists_cons_cons {β : Type} {l : List β} {i : Nat} (h : i + 1 < l.length) :
    ∃ a b rest, l = a :: b :: rest := by
  obtain ⟨a, tail, rfl⟩ := List.exists_cons_of_length_pos (Nat.zero_lt_of_lt h)
  obtain ⟨b, rest, rfl⟩ := List.exists_cons_of_length_pos
    (Nat.zero_lt_of_lt (Nat.lt_of_succ_lt_succ h))
  exact ⟨a, b, rest, rfl⟩

/-- Each rung is placed against its lower neighbour in the new place. -/
theorem getElem?_adaptAbove {α : Type} [Scalar α] {low t high below above : α}
    {rungs rates : List α} {i : Nat} (ht : rungs[i]? = some t) (hhigh : rungs[i + 1]? = some high)
    (hbelow : rates[i]? = some below) (habove : rates[i + 1]? = some above) :
    ∃ low', (low :: (adaptAbove low rungs rates).1)[i]? = some low' ∧
      (adaptAbove low rungs rates).1[i]? =
        some ((relocate? low' t high ((below + above) / 2.0)).getD t) := by
  fun_induction adaptAbove low rungs rates generalizing i with
  | case1 low r r' rungs b b' rates place rest moved hrest =>
    rename_i ih
    cases i with
    | zero =>
      cases ht
      cases hhigh
      cases hbelow
      cases habove
      exact ⟨low, rfl, rfl⟩
    | succ i =>
      have hnext := ih ht hhigh hbelow habove
      rw [hrest] at hnext
      exact hnext
  | case2 low rungs rates hshort =>
    -- a rung with another above it and two rates is one of those that are placed
    obtain ⟨r, r', rungs, rfl⟩ := exists_cons_cons (List.getElem?_eq_some_iff.mp hhigh).1
    obtain ⟨b, b', rates, rfl⟩ := exists_cons_cons (List.getElem?_eq_some_iff.mp habove).1
    exact absurd rfl (hshort r r' rungs b b' rates rfl)

/-- Rungs are placed between positive numbers. -/
theorem positive_adaptAbove {low : Float} {rungs rates : List Float} (hlow : Positive low)
    (hrungs : ∀ t ∈ rungs, Positive t) : ∀ t ∈ (adaptAbove low rungs rates).1, Positive t := by
  fun_induction adaptAbove low rungs rates with
  | case1 low t high rungs below above rates place rest moved hrest ih =>
    have ht : Positive t := hrungs t (by simp)
    have hhigh : Positive high := hrungs high (by simp)
    have hplace : Positive (place.getD t) := by
      cases hmoves : place with
      | none => exact ht
      | some t' =>
        obtain ⟨habove, hbelow, -⟩ := relocate?_eq_some hmoves
        exact .of_between hlow hhigh habove hbelow
    have habove := ih hplace fun r hr => hrungs r (List.mem_cons_of_mem t hr)
    rw [hrest] at habove
    exact List.forall_mem_cons.mpr ⟨hplace, habove⟩
  | case2 => exact hrungs

/-! ## Result -/

/-- On a ladder of positive temperatures, with one rate for each pair, a rung whose exchanges are rare
moves by these rules against its lower neighbour in the new and its upper neighbour in the old place: up
if its square is less than the product of its neighbours as it is rounded, and down if not. This is the
direction of the true geometric mean if the product is in the normal range; if it underflows, the rung
goes down in any case, and if it overflows, the rung stays. -/
theorem directed_adapt (temperatures rates : List Float)
    (hpositive : ∀ t ∈ temperatures, Positive t) (hrates : rates.length + 1 = temperatures.length)
    (i : Nat) (t high below above : Float) (ht : temperatures[i + 1]? = some t)
    (hhigh : temperatures[i + 2]? = some high) (hbelow : rates[i]? = some below)
    (habove : rates[i + 1]? = some above) (hrare : (below + above) / 2.0 < targetRate - tolerance) :
    let after := (adapt temperatures rates).1
    ∃ low t', after[i]? = some low ∧ after[i + 1]? = some t' ∧ Directed low t high t' := by
  intro after
  cases temperatures with
  | nil => cases ht
  | cons lowest rungs =>
    have hinner : ¬ ((lowest :: rungs).length < 3 ∨
        rates.length + 1 ≠ (lowest :: rungs).length) := by
      have hlength : i + 2 < (lowest :: rungs).length := (List.getElem?_eq_some_iff.mp hhigh).1
      omega
    have hafter : after = lowest :: (adaptAbove lowest rungs rates).1 := by
      simp only [after, adapt, if_neg hinner]
    obtain ⟨hlowest, hrungs⟩ := List.forall_mem_cons.mp hpositive
    have hplaced : ∀ r ∈ after, Positive r := by
      rw [hafter]
      exact List.forall_mem_cons.mpr ⟨hlowest, positive_adaptAbove hlowest hrungs⟩
    have hrung : rungs[i]? = some t := ht
    have hupper : rungs[i + 1]? = some high := hhigh
    obtain ⟨low, hlow, ht'⟩ := getElem?_adaptAbove hrung hupper hbelow habove
    rw [← hafter] at hlow
    have hplace : after[i + 1]? =
        some ((relocate? low t high ((below + above) / 2.0)).getD t) := by
      rw [hafter]
      exact ht'
    exact ⟨low, _, hlow, hplace, directed_relocate (hplaced low (List.mem_of_getElem? hlow))
      (hrungs t (List.mem_of_getElem? hrung)) (hrungs high (List.mem_of_getElem? hupper)) hrare⟩

/-- A rung that is hotter than the mean of its neighbours goes down. -/
theorem directed_adapt_down :
    (∀ t ∈ [1.0, 9.0, (16.0 : Float)], Positive t) ∧
    ((0.0 : Float) + 0.0) / 2.0 < targetRate - tolerance ∧
    leastNormal ≤ value 1.0 * value 16.0 ∧
    ∃ t', (adapt [1.0, 9.0, (16.0 : Float)] [0.0, 0.0]).1[1]? = some t' ∧ t' ≠ 9.0 ∧ ¬ 9.0 < t' := by
  have hpositive : ∀ t ∈ [1.0, 9.0, (16.0 : Float)], Positive t := by
    simp only [List.forall_mem_cons, positive_iff]
    exact ⟨by decide, by decide, by decide, fun t ht => by cases ht⟩
  have hrare : ((0.0 : Float) + 0.0) / 2.0 < targetRate - tolerance := by decide +kernel
  have hnine : (9.0 : Float).toModel.unpack = .finite .positive (9 * 2 ^ 49) (-49) (by norm_num) := by
    rfl
  have hsixteen : (16.0 : Float).toModel.unpack = .finite .positive (2 ^ 52) (-48) (by norm_num) := by
    rfl
  have hnine' : value 9.0 = 9 := by
    rw [value_of_unpack hnine]
    norm_num
  have hsixteen' : value 16.0 = 16 := by
    rw [value_of_unpack hsixteen]
    norm_num
  have hnormal : leastNormal ≤ value 1.0 * value 16.0 := by
    rw [value_one, hsixteen']
    exact leastNormal_le_one.trans (by norm_num)
  obtain ⟨low, t', hlow, ht', hdirected⟩ := directed_adapt [1.0, 9.0, 16.0] [0.0, 0.0] hpositive rfl 0
    9.0 16.0 0.0 0.0 rfl rfl rfl rfl hrare
  have hfixed : low = 1.0 := (Option.some.inj hlow).symm
  have hmoved : t' ≠ 9.0 := by
    rintro rfl
    exact absurd ht' (by decide +kernel)
  refine ⟨hpositive, hrare, hnormal, t', ht', hmoved, ?_⟩
  rw [hfixed] at hdirected
  rw [hdirected.exact hnormal hmoved, value_one, hnine', hsixteen']
  norm_num

end Ladder

end ThermalSearch
