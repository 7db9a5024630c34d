import ThermalSearch.Failure

namespace ThermalSearch.Word

/-!
# Indices and sizes in 64 bits

Table offsets are natural numbers below `2 ^ 64`. An offset that is computed from indices nobody
has checked may exceed that, and then it names no cell: the operations here fail instead of
wrapping around to some other cell. This is arithmetic as it is compiled with overflow checks.
Compiled without them it wraps around, so that what is said here of calls that fail holds of a
build with the checks only.
-/

/-- The number itself when it fits. -/
def fit (n : Nat) : Except Fault Nat :=
  if n < UInt64.size then .ok n else .error .overflow

def add (a b : Nat) : Except Fault Nat := fit (a + b)

def mul (a b : Nat) : Except Fault Nat := fit (a * b)

def sub (a b : Nat) : Except Fault Nat :=
  if b ≤ a then .ok (a - b) else .error .overflow

def div (a b : Nat) : Except Fault Nat :=
  if b = 0 then .error .divisionByZero else .ok (a / b)

def mod (a b : Nat) : Except Fault Nat :=
  if b = 0 then .error .divisionByZero else .ok (a % b)

theorem fit_eq_ok_iff {n m : Nat} : fit n = .ok m ↔ n < UInt64.size ∧ m = n := by
  unfold fit
  constructor
  · intro h
    split at h
    next hfits =>
      cases h
      exact ⟨hfits, rfl⟩
    next => cases h
  · intro ⟨hfits, heq⟩
    rw [if_pos hfits, heq]

theorem add_eq_ok_iff {a b c : Nat} : add a b = .ok c ↔ a + b < UInt64.size ∧ c = a + b :=
  fit_eq_ok_iff

theorem mul_eq_ok_iff {a b c : Nat} : mul a b = .ok c ↔ a * b < UInt64.size ∧ c = a * b :=
  fit_eq_ok_iff

/-- Rows come one after the other, and the sum can be formed only if the product can. -/
theorem mul_add_eq_ok_iff {row width column cell : Nat} :
    (mul row width >>= fun start => add start column) = .ok cell ↔
      row * width + column < UInt64.size ∧ cell = row * width + column := by
  rw [bind_eq_ok_iff]
  constructor
  · intro ⟨start, hstart, hcell⟩
    rw [(mul_eq_ok_iff.mp hstart).2] at hcell
    exact add_eq_ok_iff.mp hcell
  · intro ⟨hwords, hcell⟩
    have hstart : row * width < UInt64.size := Nat.lt_of_le_of_lt (Nat.le_add_right _ column) hwords
    exact ⟨_, mul_eq_ok_iff.mpr ⟨hstart, rfl⟩, add_eq_ok_iff.mpr ⟨hwords, hcell⟩⟩

theorem sub_eq_ok_iff {a b c : Nat} : sub a b = .ok c ↔ b ≤ a ∧ c = a - b := by
  unfold sub
  constructor
  · intro h
    split at h
    next hle =>
      cases h
      exact ⟨hle, rfl⟩
    next => cases h
  · intro ⟨hle, heq⟩
    rw [if_pos hle, heq]

end ThermalSearch.Word
