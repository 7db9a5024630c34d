import ThermalSearch.Proofs.Scalar.Operations

/-!
# Sums that stay finite

A sum of many numbers is rounded at every addition. The partial sum that a number is added to is a
float, though, and the rounded result is not farther from the exact one than that float: an addition
moves the sum by at most twice what is added (`Within.add`). So however many numbers there are, the sum
stays below twice the sum of their sizes, and is finite as long as this is in range (`within_foldl`).

The bounds are stated with the finiteness they are about, as one property of a float (`Within`).
-/

namespace ThermalSearch.Binary64

/-- A finite float whose number is at most `b` in size. -/
structure Within (b : ℝ) (x : Float) : Prop where
  finite : x.isFinite
  le : |value x| ≤ b

variable {x y : Float} {b c z : ℝ}

theorem Within.mono (h : Within b x) (hbc : b ≤ c) : Within c x := ⟨h.finite, h.le.trans hbc⟩

theorem within_abs (hx : x.isFinite) : Within |value x| x := ⟨hx, le_rfl⟩

theorem within_zero : Within 0 0.0 := by
  refine ⟨by rfl, ?_⟩
  rw [value_zero, abs_zero]

theorem Within.neg (h : Within b x) : Within b (-x) := by
  refine ⟨isFinite_neg h.finite, ?_⟩
  rw [value_neg h.finite, abs_neg]
  exact h.le

/-- Rounding can at most double a number, since zero is a float. -/
theorem IsRounded.within (h : IsRounded x z) (hz : |z| ≤ greatest) : Within (2 * |z|) x := by
  have hnearest : Nearest x z := h.nearest (h.finite hz)
  have hzero := hnearest.le 0 onGrid_zero
  rw [zero_sub, abs_neg] at hzero
  refine ⟨hnearest.finite, ?_⟩
  calc |value x| = |(value x - z) + z| := by rw [sub_add_cancel]
    _ ≤ |value x - z| + |z| := abs_add_le _ _
    _ ≤ 2 * |z| := by linarith

/-- Rounding does not leave the range up to a power of two. -/
theorem IsRounded.within_zpow (h : IsRounded x z) {k : ℤ} (hz : |z| ≤ 2 ^ k) (hk : -1074 ≤ k)
    (hk' : k ≤ 1023) : Within (2 ^ k) x := by
  have hgrid : OnGrid (2 ^ k) := onGrid_zpow hk
  have hrange : (2 : ℝ) ^ k ≤ greatest := (zpow_lt_greatest hk').le
  obtain ⟨hlow, hhigh⟩ := abs_le.mp hz
  obtain ⟨hfinite, hfrom, hto⟩ := h.between hgrid.neg hgrid (neg_le_neg hrange) hrange hlow hhigh
  exact ⟨hfinite, abs_le.mpr ⟨hfrom, hto⟩⟩

/-- An addition moves a sum by at most twice what is added. -/
theorem Within.add (hx : Within b x) (hy : Within c y) (hrange : b + 2 * c ≤ greatest) :
    Within (b + 2 * c) (x + y) := by
  have hrounded := isRounded_add hx.finite hy.finite
  have hexact : |value x + value y| ≤ b + c := (abs_add_le _ _).trans (add_le_add hx.le hy.le)
  have hc : 0 ≤ c := (abs_nonneg _).trans hy.le
  have hnearest := hrounded.nearest (hrounded.finite (hexact.trans (by linarith)))
  -- the sum so far competes with the rounded one
  have hstay := hnearest.le (value x) (onGrid_value hx.finite)
  rw [sub_add_cancel_left, abs_neg] at hstay
  refine ⟨hnearest.finite, ?_⟩
  calc |value (x + y)| = |(value (x + y) - (value x + value y)) + (value x + value y)| := by
        rw [sub_add_cancel]
    _ ≤ |value (x + y) - (value x + value y)| + |value x + value y| := abs_add_le _ _
    _ ≤ c + (b + c) := add_le_add (hstay.trans hy.le) hexact
    _ = b + 2 * c := by ring

theorem Within.sub (hx : Within b x) (hy : Within c y) (hrange : b + 2 * c ≤ greatest) :
    Within (b + 2 * c) (x - y) := by
  rw [sub_eq_add_neg_of_finite hy.finite]
  exact hx.add hy.neg hrange

/-- What is known to be half as large moves a difference by its bound only. -/
theorem Within.sub_of_half (hx : Within b x) (hy : Within (c / 2) y) (hrange : b + c ≤ greatest) :
    Within (b + c) (x - y) := by
  have htwice : 2 * (c / 2) = c := by ring
  rw [← htwice] at hrange ⊢
  exact hx.sub hy hrange

/-! ## Halves, quarters and signs -/

theorem value_two : value 2.0 = 2 := by
  have htwo : (2.0 : Float).toModel.unpack = .finite .positive (2 ^ 52) (-51) (by norm_num) := by
    rfl
  rw [value_of_unpack htwo]
  norm_num

theorem value_four : value 4.0 = 4 := by
  have hfour : (4.0 : Float).toModel.unpack = .finite .positive (2 ^ 52) (-50) (by norm_num) := by
    rfl
  rw [value_of_unpack hfour]
  norm_num

/-- A part of a float is at most twice that part of its number. -/
theorem Within.div {d : Float} (hx : Within b x) (hd : d.isFinite) (hone : 1 ≤ value d) :
    Within (2 * (b / value d)) (x / d) := by
  have hpos : 0 < value d := zero_lt_one.trans_le hone
  have hsize : |value x / value d| = |value x| / value d := by rw [abs_div, abs_of_pos hpos]
  have hle : |value x| / value d ≤ |value x| := div_le_self (abs_nonneg _) hone
  have hrounded := (isRounded_div hx.finite hd hpos.ne').within
    (hsize ▸ hle.trans (abs_value_le_greatest hx.finite))
  rw [hsize] at hrounded
  exact hrounded.mono (by gcongr; exact hx.le)

theorem Within.half (hx : Within b x) : Within b (x / 2.0) := by
  have hhalf := hx.div (d := 2.0) (by rfl) (by rw [value_two]; norm_num)
  rw [value_two] at hhalf
  exact hhalf.mono (by linarith)

theorem Within.quarter (hx : Within b x) : Within (b / 2) (x / 4.0) := by
  have hquarter := hx.div (d := 4.0) (by rfl) (by rw [value_four]; norm_num)
  rw [value_four] at hquarter
  exact hquarter.mono (by linarith)

/-- Nothing is rounded where at most the sign changes. -/
theorem Within.mul_unit {σ : Float} (hx : Within b x) (hσ : σ = 1.0 ∨ σ = -(1.0)) :
    Within b (x * σ) := by
  have hsign : σ.isFinite ∧ (value x * value σ = value x ∨ value x * value σ = -value x) := by
    rcases hσ with rfl | rfl
    · exact ⟨by rfl, Or.inl (by rw [value_one, mul_one])⟩
    · exact ⟨by rfl, Or.inr (by rw [value_neg (by rfl), value_one, mul_neg_one])⟩
  obtain ⟨hfinite, hproduct⟩ := hsign
  have hrounded := isRounded_mul hx.finite hfinite
  have hgrid : OnGrid (value x * value σ) := by
    rcases hproduct with hsame | hsame
    · rw [hsame]
      exact onGrid_value hx.finite
    · rw [hsame]
      exact (onGrid_value hx.finite).neg
  have hsize : |value x * value σ| = |value x| := by
    rcases hproduct with hsame | hsame
    · rw [hsame]
    · rw [hsame, abs_neg]
  have hrange : |value x * value σ| ≤ greatest := hsize ▸ abs_value_le_greatest hx.finite
  refine ⟨hrounded.finite hrange, ?_⟩
  rw [hrounded.eq hgrid hrange, hsize]
  exact hx.le

/-! ## Loops -/

/-- What a loop accumulates stays in range if each step adds its share to the bound. -/
theorem within_foldl {β : Type} {l : List β} {body : Float → β → Float} {share : β → ℝ}
    (hbody : ∀ s b, ∀ i ∈ l, Within b s → b + share i ≤ greatest → Within (b + share i) (body s i))
    (hshare : ∀ i ∈ l, 0 ≤ share i) {s : Float} (hs : Within b s)
    (hrange : b + (l.map share).sum ≤ greatest) : Within (b + (l.map share).sum) (l.foldl body s) := by
  induction l generalizing s b with
  | nil => simpa using hs
  | cons i l ih =>
    rw [List.map_cons, List.sum_cons, ← add_assoc] at hrange ⊢
    -- what is still to come cannot lower the bound, so this step is in range as well
    have hrest : 0 ≤ (l.map share).sum :=
      List.sum_nonneg (List.forall_mem_map.mpr fun j hj => hshare j (List.mem_cons_of_mem i hj))
    have hfirst := hbody s b i List.mem_cons_self hs (by linarith)
    exact ih (fun s b j hj => hbody s b j (List.mem_cons_of_mem i hj))
      (fun j hj => hshare j (List.mem_cons_of_mem i hj)) hfirst hrange

/-- The sum of finite floats, from left to right. -/
theorem within_foldl_add {xs : List Float} (hxs : ∀ x ∈ xs, x.isFinite) {s : Float}
    (hs : Within b s) (hrange : b + 2 * (xs.map fun x => |value x|).sum ≤ greatest) :
    Within (b + 2 * (xs.map fun x => |value x|).sum) (xs.foldl (· + ·) s) := by
  rw [← List.sum_map_mul_left] at hrange ⊢
  refine within_foldl ?_ ?_ hs hrange
  · intro s b x hx hs hstep
    exact hs.add (within_abs (hxs x hx)) hstep
  · intro x _
    positivity

end ThermalSearch.Binary64
