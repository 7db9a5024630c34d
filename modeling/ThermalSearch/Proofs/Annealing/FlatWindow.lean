import ThermalSearch.Proofs.Annealing.Window
import ThermalSearch.Proofs.Scalar.Operations

/-!
# Windows of one energy

A chain that is stuck fills its window with copies of one energy. Their mean is calculated from a sum
that is rounded at every copy, and need not be that energy. Where it is, there is no spread, and Huang's
schedule cools geometrically; so it is for two copies, and for energies of so few bits that no sum is
rounded (`value_meanOf_of_sumsExactly`). Where it is not, the distance between the two is taken for a
spread, however small it is, unless its square underflows (`Copied.spread_cases`).
-/

namespace ThermalSearch

namespace Binary64

/-! ## Sums of copies -/

/-- The sum of copies of a number, as it is rounded. -/
def copies (x : Float) (n : Nat) : Float := Scalar.sum (List.replicate n x)

theorem copies_succ (x : Float) (n : Nat) : copies x (n + 1) = copies x n + x := by
  unfold copies Scalar.sum
  rw [List.replicate_succ', List.foldl_append]
  rfl

theorem copies_empty (x : Float) : (copies x 0).isFinite ∧ value (copies x 0) = 0 := by
  have hempty : copies x 0 = -(0.0) := rfl
  rw [hempty, value_neg (by rfl), value_zero, neg_zero]
  exact ⟨by rfl, rfl⟩

/-- Positive zeros sum up to one. -/
theorem copies_zero {n : Nat} (hn : 0 < n) : copies 0.0 n = 0.0 := by
  induction n, hn using Nat.le_induction with
  | base => rfl
  | succ n hn ih =>
    rw [copies_succ, ih]
    rfl

/-- All multiples of a number up to the `n`-th can be held by a float. -/
structure Multiples (n : Nat) (a : ℝ) : Prop where
  onGrid : ∀ j ≤ n, OnGrid (j * a)
  le : |n * a| ≤ greatest

namespace Multiples

variable {n : Nat} {a : ℝ}

theorem mono (h : Multiples n a) {j : Nat} (hj : j ≤ n) : Multiples j a := by
  refine ⟨fun i hi => h.onGrid i (hi.trans hj), le_trans ?_ h.le⟩
  have hj' : (j : ℝ) ≤ n := by exact_mod_cast hj
  rw [abs_mul, abs_mul, Nat.abs_cast, Nat.abs_cast]
  gcongr

theorem bounds (h : Multiples n a) : -greatest ≤ n * a ∧ n * a ≤ greatest := abs_le.mp h.le

theorem self_onGrid (h : Multiples n a) (hn : 0 < n) : OnGrid a := by
  have hone := h.onGrid 1 hn
  rwa [Nat.cast_one, one_mul] at hone

theorem self_bounds (h : Multiples n a) (hn : 0 < n) : -greatest ≤ a ∧ a ≤ greatest := by
  have hone := (h.mono hn).bounds
  rwa [Nat.cast_one, one_mul] at hone

theorem zero (n : Nat) : Multiples n 0 := by
  refine ⟨fun j _ => ?_, ?_⟩
  · rw [mul_zero]
    exact onGrid_zero
  · rw [mul_zero, abs_zero]
    exact (zpow_pos (by norm_num) 0).le.trans (zpow_lt_greatest (by norm_num : (0 : ℤ) ≤ 1023)).le

theorem neg (h : Multiples n a) : Multiples n (-a) := by
  refine ⟨fun j hj => ?_, ?_⟩
  · rw [mul_neg]
    exact (h.onGrid j hj).neg
  · rw [mul_neg, abs_neg]
    exact h.le

/-- For a hundred copies there is room above a power of two. -/
theorem zpow {k : ℤ} (hn : n ≤ 100) (hlow : -1074 ≤ k) (hhigh : k ≤ 1000) : Multiples n (2 ^ k) := by
  refine ⟨fun j hj => onGrid_mul_zpow (by omega) hlow, ?_⟩
  have hn' : (n : ℝ) ≤ 2 ^ 7 := by
    have hn128 : n ≤ 2 ^ 7 := by omega
    exact_mod_cast hn128
  rw [abs_of_nonneg (by positivity)]
  calc (n : ℝ) * 2 ^ k ≤ 2 ^ 7 * 2 ^ (1000 : ℤ) := by
        gcongr
        norm_num
    _ = ((2 ^ 36 : Nat) : ℝ) * 2 ^ (971 : ℤ) := by
        have hsum : (1000 : ℤ) = 29 + 971 := by norm_num
        rw [hsum, zpow_add₀ (by norm_num)]
        push_cast
        ring
    _ ≤ greatest := magnitude_le_greatest (by norm_num) (by norm_num)

end Multiples

variable {x : Float} {a b : ℝ} {n : Nat}

/-- Rounding does not take a sum of copies past as many copies of a bound. -/
theorem copies_between (hx : x.isFinite) (ha : Multiples n a) (hb : Multiples n b)
    (hax : a ≤ value x) (hxb : value x ≤ b) :
    (copies x n).isFinite ∧ n * a ≤ value (copies x n) ∧ value (copies x n) ≤ n * b := by
  induction n with
  | zero =>
    obtain ⟨hfinite, hvalue⟩ := copies_empty x
    rw [hvalue, Nat.cast_zero, zero_mul, zero_mul]
    exact ⟨hfinite, le_rfl, le_rfl⟩
  | succ n ih =>
    obtain ⟨hfinite, hlow, hhigh⟩ := ih (ha.mono (Nat.le_succ n)) (hb.mono (Nat.le_succ n))
    rw [copies_succ]
    refine (isRounded_add hfinite hx).between (ha.onGrid (n + 1) (Nat.le_refl _))
      (hb.onGrid (n + 1) (Nat.le_refl _)) ha.bounds.1 hb.bounds.2 ?_ ?_
    · push_cast
      linarith
    · push_cast
      linarith

/-! ## Means of copies -/

/-- The sum of copies over their number. -/
def meanOf (x : Float) (n : Nat) : Float := copies x n / Scalar.ofNat n

theorem isRounded_meanOf (hfinite : (copies x n).isFinite) (hn : 0 < n) (hn' : n < 2 ^ 53) :
    IsRounded (meanOf x n) (value (copies x n) / n) := by
  obtain ⟨hcount, hvalue⟩ := value_ofNat hn'
  have hn0 : (0 : ℝ) < n := by exact_mod_cast hn
  have hquotient := isRounded_div hfinite hcount (by rw [hvalue]; exact hn0.ne')
  rwa [hvalue] at hquotient

/-- A mean is between the bounds of what it is taken of. -/
theorem meanOf_between (hx : x.isFinite) (hn : 0 < n) (hn' : n < 2 ^ 53) (ha : Multiples n a)
    (hb : Multiples n b) (hax : a ≤ value x) (hxb : value x ≤ b) :
    (meanOf x n).isFinite ∧ a ≤ value (meanOf x n) ∧ value (meanOf x n) ≤ b := by
  obtain ⟨hfinite, hlow, hhigh⟩ := copies_between hx ha hb hax hxb
  have hn0 : (0 : ℝ) < n := by exact_mod_cast hn
  refine (isRounded_meanOf hfinite hn hn').between (ha.self_onGrid hn) (hb.self_onGrid hn)
    (ha.self_bounds hn).1 (hb.self_bounds hn).2 ?_ ?_
  · rwa [le_div_iff₀ hn0, mul_comm]
  · rwa [div_le_iff₀ hn0, mul_comm]

/-- If no sum is rounded, the mean is what it is taken of. -/
theorem value_meanOf (hx : x.isFinite) (hn : 0 < n) (hn' : n < 2 ^ 53)
    (h : Multiples n (value x)) : value (meanOf x n) = value x := by
  obtain ⟨-, hlow, hhigh⟩ := meanOf_between hx hn hn' h h le_rfl le_rfl
  exact le_antisymm hhigh hlow

theorem meanOf_zero (hn : 0 < n) (hn' : n < 2 ^ 53) : meanOf 0.0 n = 0.0 := by
  obtain ⟨hcount, hvalue⟩ := value_ofNat hn'
  rw [meanOf, copies_zero hn]
  refine zero_div_of_pos hcount ?_
  rw [hvalue]
  exact_mod_cast hn

/-! ## The spread of copies -/

/-- What their mean differs from the copies by. -/
def excess (x : Float) (n : Nat) : Float := x - meanOf x n

def squaredExcess (x : Float) (n : Nat) : Float := excess x n * excess x n

/-- The root of the mean of the squares. -/
def spreadOf (x : Float) (n : Nat) : Float := (meanOf (squaredExcess x n) n).sqrt

/-- Copies of a number below a power of two. -/
structure Copied (x : Float) (n : Nat) (p : ℤ) : Prop where
  finite : x.isFinite
  small : |value x| ≤ 2 ^ p
  pos : 0 < n
  le : n ≤ 100
  low : -480 ≤ p
  high : p ≤ 500

namespace Copied

variable {p : ℤ}

theorem multiples (h : Copied x n p) {k : ℤ} (hlow : -1074 ≤ k) (hhigh : k ≤ 1000) :
    Multiples n (2 ^ k) :=
  .zpow h.le hlow hhigh

/-- There is room for all copies. -/
theorem room (h : Copied x n p) : Multiples n (2 ^ p) := by
  have hlow := h.low
  have hhigh := h.high
  exact h.multiples (by omega) (by omega)

/-- Sums of copies grow by no more than the bound for each. -/
theorem copies_bounded (h : Copied x n p) {j : Nat} (hj : j ≤ n) :
    (copies x j).isFinite ∧ |value (copies x j)| ≤ j * 2 ^ p := by
  obtain ⟨hsmall, hsmall'⟩ := abs_le.mp h.small
  obtain ⟨hfinite, hlow, hhigh⟩ :=
    copies_between h.finite (h.room.mono hj).neg (h.room.mono hj) hsmall hsmall'
  rw [mul_neg] at hlow
  exact ⟨hfinite, abs_le.mpr ⟨hlow, hhigh⟩⟩

/-- Each copy adds an error of a unit in the last place of the sum. -/
theorem copies_error (h : Copied x n p) {j : Nat} (hj : j ≤ n) :
    |value (copies x j) - j * value x| ≤ j ^ 2 * (2 ^ (-53 : ℤ) * 2 ^ p) := by
  have hlow := h.low
  have hunit : (2 : ℝ) ^ (-1075 : ℤ) ≤ 2 ^ (-53 : ℤ) * 2 ^ p := by
    rw [← zpow_add₀ (by norm_num)]
    exact zpow_le_zpow_right₀ (by norm_num) (by omega)
  induction j with
  | zero =>
    rw [(copies_empty x).2]
    simp
  | succ j ih =>
    have hj' : j ≤ n := by omega
    have herror := ih hj'
    obtain ⟨hfinite, hbound⟩ := h.copies_bounded hj'
    have hnext : (copies x j + x).isFinite := copies_succ x j ▸ (h.copies_bounded hj).1
    have hrounded := ((isRounded_add hfinite h.finite).nearest hnext).error
    have hsum : |value (copies x j) + value x| ≤ (j + 1) * 2 ^ p := by
      refine (abs_add_le _ _).trans ?_
      linarith [h.small]
    have hstep : max (2 ^ (-53 : ℤ) * |value (copies x j) + value x|) (2 ^ (-1075 : ℤ)) ≤
        (j + 1) * (2 ^ (-53 : ℤ) * 2 ^ p) := by
      refine max_le ?_ (hunit.trans ?_)
      · calc 2 ^ (-53 : ℤ) * |value (copies x j) + value x|
            ≤ 2 ^ (-53 : ℤ) * ((j + 1) * 2 ^ p) := by gcongr
          _ = (j + 1) * (2 ^ (-53 : ℤ) * 2 ^ p) := by ring
      · refine le_mul_of_one_le_left (by positivity) ?_
        linarith [(Nat.cast_nonneg j : (0 : ℝ) ≤ j)]
    have hsplit : value (copies x j + x) - (j + 1 : Nat) * value x =
        (value (copies x j + x) - (value (copies x j) + value x)) +
          (value (copies x j) - j * value x) := by
      push_cast
      ring
    rw [copies_succ, hsplit]
    refine (abs_add_le _ _).trans ?_
    push_cast
    have hunit0 : (0 : ℝ) ≤ 2 ^ (-53 : ℤ) * 2 ^ p := by positivity
    have hj0 : (0 : ℝ) ≤ j := Nat.cast_nonneg j
    generalize (2 : ℝ) ^ (-53 : ℤ) * 2 ^ p = u at *
    nlinarith

theorem mean_bounded (h : Copied x n p) :
    (meanOf x n).isFinite ∧ |value (meanOf x n)| ≤ 2 ^ p := by
  have hle := h.le
  obtain ⟨hsmall, hsmall'⟩ := abs_le.mp h.small
  obtain ⟨hfinite, hbounds⟩ :=
    meanOf_between h.finite h.pos (by omega) h.room.neg h.room hsmall hsmall'
  exact ⟨hfinite, abs_le.mpr hbounds⟩

/-- A hundred such errors are less than seven bits. -/
theorem mean_error (h : Copied x n p) :
    |value (meanOf x n) - value x| ≤ 2 ^ (p - 46) := by
  have hlow := h.low
  have hle := h.le
  have hn0 : (0 : ℝ) < n := by exact_mod_cast h.pos
  obtain ⟨hfinite, hbound⟩ := h.copies_bounded (Nat.le_refl n)
  have hrounding := ((isRounded_meanOf hfinite h.pos (by omega)).nearest h.mean_bounded.1).error
  have hquotient : |value (copies x n) / n| ≤ 2 ^ p := by
    rwa [abs_div, Nat.abs_cast, div_le_iff₀ hn0, mul_comm]
  have hunit : max (2 ^ (-53 : ℤ) * |value (copies x n) / n|) (2 ^ (-1075 : ℤ)) ≤
      2 ^ (-53 : ℤ) * 2 ^ p := by
    refine max_le (by gcongr) ?_
    rw [← zpow_add₀ (by norm_num)]
    exact zpow_le_zpow_right₀ (by norm_num) (by omega)
  have hsums : |value (copies x n) / n - value x| ≤ n * (2 ^ (-53 : ℤ) * 2 ^ p) := by
    have herror := h.copies_error (Nat.le_refl n)
    have hscaled : value (copies x n) / n - value x = (value (copies x n) - n * value x) / n := by
      field_simp
    rw [hscaled, abs_div, Nat.abs_cast, div_le_iff₀ hn0]
    refine herror.trans (le_of_eq ?_)
    ring
  have hn128 : (n : ℝ) + 1 ≤ 2 ^ 7 := by
    have hle128 : n + 1 ≤ 2 ^ 7 := by omega
    exact_mod_cast hle128
  have hsplit : value (meanOf x n) - value x = (value (meanOf x n) - value (copies x n) / n) +
      (value (copies x n) / n - value x) := by ring
  calc |value (meanOf x n) - value x|
      ≤ 2 ^ (-53 : ℤ) * 2 ^ p + n * (2 ^ (-53 : ℤ) * 2 ^ p) := by
        rw [hsplit]
        exact (abs_add_le _ _).trans (add_le_add (hrounding.trans hunit) hsums)
    _ = (n + 1) * (2 ^ (-53 : ℤ) * 2 ^ p) := by ring
    _ ≤ 2 ^ 7 * (2 ^ (-53 : ℤ) * 2 ^ p) := by gcongr
    _ = 2 ^ (p - 46) := by
        rw [← zpow_natCast, ← zpow_add₀ (by norm_num), ← zpow_add₀ (by norm_num)]
        congr 1
        push_cast
        ring

theorem isRounded_excess (h : Copied x n p) :
    IsRounded (excess x n) (value x - value (meanOf x n)) :=
  isRounded_sub h.finite h.mean_bounded.1

theorem excess_bounded (h : Copied x n p) :
    (excess x n).isFinite ∧ |value (excess x n)| ≤ 2 ^ (p - 46) := by
  have hlow := h.low
  have hhigh := h.high
  refine h.isRounded_excess.bounded (onGrid_zpow (by omega)) (zpow_lt_greatest (by omega)).le ?_
  rw [abs_sub_comm]
  exact h.mean_error

theorem isRounded_squaredExcess (h : Copied x n p) :
    IsRounded (squaredExcess x n) (value (excess x n) * value (excess x n)) :=
  isRounded_mul h.excess_bounded.1 h.excess_bounded.1

theorem squaredExcess_bounded (h : Copied x n p) :
    (squaredExcess x n).isFinite ∧ 0 ≤ value (squaredExcess x n) ∧
      value (squaredExcess x n) ≤ 2 ^ (2 * (p - 46)) := by
  obtain ⟨-, hbound⟩ := h.excess_bounded
  have hlow := h.low
  have hhigh := h.high
  have hroom : Multiples n (2 ^ (2 * (p - 46))) := h.multiples (by omega) (by omega)
  refine h.isRounded_squaredExcess.between onGrid_zero (onGrid_zpow (by omega))
    ((Multiples.zero n).self_bounds h.pos).1 (hroom.self_bounds h.pos).2 (mul_self_nonneg _) ?_
  rw [two_mul, zpow_add₀ (by norm_num), ← abs_mul_abs_self]
  gcongr

/-- The spread is zero if the square of the excess is, and else neither too small nor too large. -/
theorem spread_cases (h : Copied x n p) :
    (squaredExcess x n = 0.0 ∧ spreadOf x n = 0.0) ∨
      (0 < value (squaredExcess x n) ∧ (spreadOf x n).isFinite ∧
        2 ^ (-537 : ℤ) ≤ value (spreadOf x n) ∧ value (spreadOf x n) ≤ 2 ^ (p - 46)) := by
  obtain ⟨hfinite, hnonneg, hbound⟩ := h.squaredExcess_bounded
  have hlow := h.low
  have hhigh := h.high
  have hle := h.le
  rcases hnonneg.eq_or_lt with hzero | hpos
  · have hsquare : squaredExcess x n = 0.0 :=
      mul_self_eq_zero_of_value h.excess_bounded.1 hfinite hzero.symm
    refine Or.inl ⟨hsquare, ?_⟩
    rw [spreadOf, hsquare, meanOf_zero h.pos (by omega)]
    rfl
  · -- the least square there is goes through the mean as it is
    have hleast : 2 ^ (2 * -537 : ℤ) ≤ value (squaredExcess x n) :=
      (onGrid_value hfinite).least_le hpos
    obtain ⟨hmean, hmlow, hmhigh⟩ := meanOf_between hfinite h.pos (by omega)
      (h.multiples (by norm_num) (by norm_num)) (h.multiples (by omega) (by omega)) hleast hbound
    have hroot (k : ℤ) : √((2 : ℝ) ^ (2 * k)) = 2 ^ k := by
      rw [mul_comm, zpow_mul]
      exact Real.sqrt_sq (zpow_nonneg (by norm_num) k)
    have hspread := isRounded_sqrt hmean ((zpow_nonneg (by norm_num) _).trans hmlow)
    have hrlow := Real.sqrt_le_sqrt hmlow
    have hrhigh := Real.sqrt_le_sqrt hmhigh
    rw [hroot] at hrlow hrhigh
    have hneg : -greatest ≤ 2 ^ (-537 : ℤ) :=
      ((Multiples.zero n).self_bounds h.pos).1.trans (zpow_nonneg (by norm_num) _)
    exact Or.inr ⟨hpos, hspread.between (onGrid_zpow (by norm_num)) (onGrid_zpow (by omega)) hneg
      (zpow_lt_greatest (by omega)).le hrlow hrhigh⟩

theorem spreadOf_eq_zero_iff (h : Copied x n p) :
    spreadOf x n = 0.0 ↔ squaredExcess x n = 0.0 := by
  rcases h.spread_cases with ⟨hsquare, hspread⟩ | ⟨hpos, -, hlow, -⟩
  · exact iff_of_true hspread hsquare
  · refine iff_of_false (fun hzero => ?_) (fun hzero => ?_)
    · rw [hzero, value_zero] at hlow
      exact absurd hlow (zpow_pos (by norm_num) _).not_ge
    · rw [hzero, value_zero] at hpos
      exact absurd hpos (lt_irrefl 0)

/-- There is no spread when the mean is exact. -/
theorem spreadOf_of_exact (h : Copied x n p) (hmean : value (meanOf x n) = value x) :
    spreadOf x n = 0.0 := by
  have hexcess : value (excess x n) = 0 := by
    have hrounded := h.isRounded_excess
    rw [hmean, sub_self] at hrounded
    exact (hrounded.nearest h.excess_bounded.1).eq onGrid_zero
  obtain ⟨hfinite, -⟩ := h.squaredExcess_bounded
  have hrounded := h.isRounded_squaredExcess
  rw [hexcess, mul_zero] at hrounded
  rw [h.spreadOf_eq_zero_iff]
  exact mul_self_eq_zero_of_value h.excess_bounded.1 hfinite ((hrounded.nearest hfinite).eq onGrid_zero)

/-- If the square of a unit does not underflow, there is one when the mean is not exact. -/
theorem value_meanOf_of_spread (h : Copied x n p) (hlarge : 2 ^ (-480 : ℤ) ≤ |value x|)
    (hspread : spreadOf x n = 0.0) : value (meanOf x n) = value x := by
  by_contra hinexact
  have hnormal : leastNormal ≤ |value x| := by
    rw [leastNormal_eq]
    exact (zpow_le_zpow_right₀ (by norm_num) (by norm_num)).trans hlarge
  have hgap : 2 ^ (-533 : ℤ) ≤ |value x - value (meanOf x n)| := by
    have hunits := gap_of_abs h.finite hnormal (onGrid_value h.mean_bounded.1) hinexact
    rw [abs_sub_comm] at hunits
    refine le_trans ?_ hunits
    have hsplit : (2 : ℝ) ^ (-533 : ℤ) = 2 ^ (-53 : ℤ) * 2 ^ (-480 : ℤ) := by
      rw [← zpow_add₀ (by norm_num)]
      norm_num
    rw [hsplit]
    gcongr
  have hexcess : 2 ^ (-533 : ℤ) ≤ |value (excess x n)| :=
    (h.isRounded_excess.nearest h.excess_bounded.1).le_abs (onGrid_zpow (by norm_num)) hgap
  obtain ⟨hfinite, -⟩ := h.squaredExcess_bounded
  have hsquare : 2 ^ (-1066 : ℤ) ≤ value (squaredExcess x n) := by
    refine (h.isRounded_squaredExcess.nearest hfinite).le_of_ge (onGrid_zpow (by norm_num)) ?_
    have hsplit : (2 : ℝ) ^ (-1066 : ℤ) = 2 ^ (-533 : ℤ) * 2 ^ (-533 : ℤ) := by
      rw [← zpow_add₀ (by norm_num)]
      norm_num
    rw [hsplit, ← abs_mul_abs_self (value (excess x n))]
    gcongr
  rw [h.spreadOf_eq_zero_iff] at hspread
  rw [hspread, value_zero] at hsquare
  exact absurd hsquare (zpow_pos (by norm_num) _).not_ge

end Copied

/-- Copies whose sums need no more than 53 bits. -/
inductive SumsExactly (x : Float) : Nat → Prop
  | two : SumsExactly x 2
  | fewBits (n : Nat) (m k : ℤ) (eq : value x = m * 2 ^ k) (bits : n * |m| ≤ 2 ^ 53)
      (exponent : -1074 ≤ k) : SumsExactly x n

theorem SumsExactly.multiples {p : ℤ} (h : SumsExactly x n) (hx : Copied x n p) :
    Multiples n (value x) := by
  have hle : |n * value x| ≤ greatest := by
    refine le_trans ?_ hx.room.bounds.2
    rw [abs_mul, Nat.abs_cast]
    exact mul_le_mul_of_nonneg_left hx.small (Nat.cast_nonneg n)
  refine ⟨fun j hj => ?_, hle⟩
  cases h with
  | two =>
    -- no copy, one, or two of them
    obtain ⟨m, k, hm, hk, hvalue⟩ := onGrid_value hx.finite
    interval_cases j
    · rw [Nat.cast_zero, zero_mul]
      exact onGrid_zero
    · rw [Nat.cast_one, one_mul]
      exact onGrid_value hx.finite
    · refine ⟨m, k + 1, hm, by omega, ?_⟩
      rw [hvalue, zpow_add_one₀ (by norm_num)]
      push_cast
      ring
  | fewBits n m k hvalue hbits hk =>
    refine ⟨j * m, k, ?_, hk, ?_⟩
    · rw [abs_mul, Nat.abs_cast]
      refine le_trans ?_ hbits
      gcongr
    · rw [hvalue]
      push_cast
      ring

theorem value_meanOf_of_sumsExactly {p : ℤ} (hx : Copied x n p) (h : SumsExactly x n) :
    value (meanOf x n) = value x := by
  have hle := hx.le
  exact value_meanOf hx.finite hx.pos (by omega) (h.multiples hx)

end Binary64

namespace Cooler

open Binary64

section

variable {α : Type} [Scalar α]

/-- The mean of the remembered energies. -/
def meanEnergy (c : Cooler α) : α := Scalar.sum c.energies / Scalar.ofNat c.energies.length

end

/-- A window of copies has the mean and the spread of copies. -/
theorem energySpread?_of_flat {c : Cooler Float} {e : Float} (hcount : 2 ≤ c.energies.length)
    (hflat : ∀ x ∈ c.energies, x = e) :
    c.meanEnergy = meanOf e c.energies.length ∧
      c.energySpread? = some (spreadOf e c.energies.length) := by
  obtain ⟨n, hcopies⟩ : ∃ n, c.energies = List.replicate n e :=
    ⟨_, List.eq_replicate_of_mem hflat⟩
  rw [hcopies, List.length_replicate] at hcount
  unfold meanEnergy energySpread?
  rw [hcopies, List.length_replicate, if_neg (by omega)]
  dsimp only
  rw [List.map_replicate]
  exact ⟨rfl, rfl⟩

variable {schedule : CoolingSchedule} {alpha lambda e : Float} {moves : List (Bool × Float)}

/-- A window that a cooler came by is one of at most a hundred finite energies. -/
theorem copied_observeAll {c : Cooler Float}
    (hseen : c = ({ schedule, alpha, lambda } : Cooler Float).observeAll moves)
    (hcount : 2 ≤ c.energies.length) (hflat : ∀ x ∈ c.energies, x = e) {p : ℤ}
    (hsmall : |value e| ≤ 2 ^ p) (hlow : -480 ≤ p) (hhigh : p ≤ 500) :
    Copied e c.energies.length p := by
  have henergies : c.energies = ((moves.map Prod.snd).filter (Scalar.isFinite ·)).rtake window := by
    rw [hseen, observeAll_eq_ofMoves]
    rfl
  refine ⟨?_, hsmall, by omega, ?_, hlow, hhigh⟩
  · obtain ⟨x, hx⟩ := List.exists_mem_of_length_pos (by omega : 0 < c.energies.length)
    have hfinite : Scalar.isFinite x = true := by
      rw [henergies] at hx
      exact (List.mem_filter.mp (List.mem_of_mem_drop hx)).2
    rwa [hflat x hx] at hfinite
  · rw [henergies, length_rtake]
    exact Nat.min_le_left _ _

theorem nextTemperature_huang {c : Cooler Float} {sigma : Float} (hschedule : c.schedule = .huang)
    (hspread : c.energySpread? = some sigma) (t : Float) :
    c.nextTemperature t =
      if sigma > 0.0 then t * Scalar.exp (-t * c.lambda / sigma) else t * c.alpha := by
  unfold nextTemperature
  rw [hschedule]
  dsimp only
  rw [hspread]

/-! ## Result -/

/-- A window of at least two copies of an energy below `10 ^ 150` has a spread, and it is zero, whereupon
Huang's schedule cools by `alpha`, or it is finite and positive, whereupon it cools by an exponential. It
is zero when the mean of the window, as it is rounded, is that energy, as it is for two copies and for
energies of few bits; for energies not below `2 ^ -480` only then. A spread that is not zero is at least
`2 ^ -537` and at most `2 ^ -46` of any power of two above the energy. -/
theorem flat_window (alpha lambda : Float) (moves : List (Bool × Float)) (c : Cooler Float)
    (hseen : c = ({ schedule := .huang, alpha, lambda } : Cooler Float).observeAll moves)
    (e : Float) (hcount : 2 ≤ c.energies.length) (hflat : ∀ x ∈ c.energies, x = e)
    (hsmall : |value e| < 10 ^ 150) :
    ∃ sigma, c.energySpread? = some sigma ∧
      ((sigma = 0.0 ∧ ∀ t, c.nextTemperature t = t * alpha) ∨
        (sigma.isFinite ∧ 2 ^ (-537 : ℤ) ≤ value sigma ∧
          ∀ t, c.nextTemperature t = t * Scalar.exp (-t * lambda / sigma))) ∧
      (SumsExactly e c.energies.length → value c.meanEnergy = value e) ∧
      (value c.meanEnergy = value e → sigma = 0.0) ∧
      (2 ^ (-480 : ℤ) ≤ |value e| → sigma = 0.0 → value c.meanEnergy = value e) ∧
      ∀ p : ℤ, -480 ≤ p → p ≤ 500 → |value e| ≤ 2 ^ p → value sigma ≤ 2 ^ (p - 46) := by
  have hsmall' : |value e| ≤ 2 ^ (500 : ℤ) := by
    refine hsmall.le.trans ?_
    calc (10 : ℝ) ^ 150 = (10 ^ 3) ^ 50 := by rw [← pow_mul]
      _ ≤ (2 ^ 10) ^ 50 := by
        gcongr
        norm_num
      _ = 2 ^ (500 : ℤ) := by rw [← pow_mul, zpow_ofNat]
  have hcopied : Copied e c.energies.length 500 :=
    copied_observeAll hseen hcount hflat hsmall' (by norm_num) (le_refl _)
  obtain ⟨hmean, hspread⟩ := energySpread?_of_flat hcount hflat
  obtain ⟨hschedule, halpha, hlambda⟩ :=
    settings_observeAll { schedule := .huang, alpha, lambda } moves
  rw [← hseen] at hschedule halpha hlambda
  rw [hmean]
  refine ⟨_, hspread, ?_, value_meanOf_of_sumsExactly hcopied, hcopied.spreadOf_of_exact,
    hcopied.value_meanOf_of_spread, ?_⟩
  · rcases hcopied.spread_cases with ⟨-, hzero⟩ | ⟨-, hfinite, hlow, -⟩
    · refine Or.inl ⟨hzero, fun t => ?_⟩
      rw [nextTemperature_huang hschedule hspread, hzero, if_neg (by decide), halpha]
    · have hpos : spreadOf e c.energies.length > 0.0 :=
        (positive_iff.mp ⟨hfinite, (zpow_pos (by norm_num) _).trans_le hlow⟩).2
      refine Or.inr ⟨hfinite, hlow, fun t => ?_⟩
      rw [nextTemperature_huang hschedule hspread, if_pos hpos, hlambda]
  · intro p hlow hhigh hbound
    rcases (copied_observeAll hseen hcount hflat hbound hlow hhigh).spread_cases with
      ⟨-, hzero⟩ | ⟨-, -, -, hspread_le⟩
    · rw [hzero, value_zero]
      positivity
    · exact hspread_le

/-- After two moves at energy 3 Huang's schedule cools by `alpha`; after three moves at energy 0.1 it
takes what is less than `2 ^ -49` for a spread. -/
theorem flat_window_stuck :
    let c := ({ schedule := .huang, alpha := 0.9, lambda := 0.7 } : Cooler Float)
    (c.observeAll [(true, 3.0), (true, 3.0)]).nextTemperature 1.0 = 1.0 * 0.9 ∧
    ∃ sigma, (c.observeAll [(true, 0.1), (true, 0.1), (true, 0.1)]).energySpread? = some sigma ∧
      2 ^ (-537 : ℤ) ≤ value sigma ∧ value sigma ≤ 2 ^ (-49 : ℤ) ∧
      (c.observeAll [(true, 0.1), (true, 0.1), (true, 0.1)]).nextTemperature 1.0 =
        1.0 * Scalar.exp (-1.0 * 0.7 / sigma) := by
  intro c
  have hthree : (3.0 : Float).toModel.unpack = .finite .positive (3 * 2 ^ 51) (-51) (by norm_num) := by
    rfl
  have htenth : (0.1 : Float).toModel.unpack =
      .finite .positive 7205759403792794 (-56) (by norm_num) := by rfl
  have hthree' : |value 3.0| < 10 ^ 150 := by
    rw [value_of_unpack hthree]
    norm_num
  have htenth' : |value 0.1| ≤ 2 ^ (-3 : ℤ) := by
    rw [value_of_unpack htenth]
    norm_num
  constructor
  · obtain ⟨sigma, -, hcools, hexact, hzero, -⟩ :=
      flat_window 0.9 0.7 [(true, 3.0), (true, 3.0)] _ rfl 3.0 (by decide) (by decide) hthree'
    have hsigma : sigma = 0.0 := hzero (hexact .two)
    rcases hcools with ⟨-, hgeometric⟩ | ⟨-, hlow, -⟩
    · exact hgeometric 1.0
    · rw [hsigma, value_zero] at hlow
      exact absurd hlow (zpow_pos (by norm_num) _).not_ge
  · have hsmall : |value 0.1| < 10 ^ 150 := htenth'.trans_lt (by norm_num)
    obtain ⟨sigma, hspread, hcools, -, -, -, hbound⟩ :=
      flat_window 0.9 0.7 [(true, 0.1), (true, 0.1), (true, 0.1)] _ rfl 0.1 (by decide) (by decide)
        hsmall
    refine ⟨sigma, hspread, ?_⟩
    rcases hcools with ⟨hzero, -⟩ | ⟨-, hlow, hexponential⟩
    · rw [hzero] at hspread
      exact absurd hspread (by decide +kernel)
    · exact ⟨hlow, hbound (-3) (by norm_num) (by norm_num) htenth', hexponential 1.0⟩

end Cooler

end ThermalSearch
