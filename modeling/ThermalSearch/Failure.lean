import ThermalSearch.Scalar
import ThermalSearch.Decimal

namespace ThermalSearch

/-!
# Why a computation has no result

Two kinds of failure are kept apart. A `Rejection` is an answer about the input: a configuration,
a model or a vector that breaks a stated rule, found before any work is done with it. A `Fault`
is a use outside the domain of an operation, such as reading past the end of a table; nothing is
promised about what was done before it.
-/

/-- A use of an operation outside its domain. -/
inductive Fault where
  /-- A table has no cell at the index asked for. -/
  | outOfBounds
  /-- A QUBO matrix of `size` variables has no entry `(row, column)`. -/
  | noEntry (row column size : Nat)
  /-- An index or a size does not fit into 64 bits. -/
  | overflow
  /-- A table is too large for any memory. -/
  | tooLarge
  | divisionByZero
  /-- A uniform number was asked for from a range whose ends or width are not finite. -/
  | unboundedRange
deriving DecidableEq, Repr

/-- What is said about a fault, where there is more to say than that it happened. -/
def Fault.message? : Fault → Option String
  | .noEntry row column size =>
    some s!"QUBO index ({row}, {column}) out of range for size {size}"
  | _ => none

/-- The numbers that have to be finite. -/
inductive Quantity where
  | initialTemperature
  | finalTemperature
  | coolingFactor
  | reheatFraction
  | huangLambda
  | minTemperature
  | maxTemperature
  | step
  | preferenceWeight
  | penaltyWeight
  | pottsField
deriving DecidableEq, Repr

/-- The name a quantity goes by in messages. -/
def Quantity.label : Quantity → String
  | .initialTemperature => "initial_temp"
  | .finalTemperature => "final_temp"
  | .coolingFactor => "alpha"
  | .reheatFraction => "reheat_temp_fraction"
  | .huangLambda => "huang_lambda"
  | .minTemperature => "t_min"
  | .maxTemperature => "t_max"
  | .step => "step"
  | .preferenceWeight => "preference weight"
  | .penaltyWeight => "penalty_weight"
  | .pottsField => "Potts field"

/-- A setting that breaks a rule although its numbers are finite. -/
inductive Misconfiguration (α : Type) where
  | finalTemperatureNotPositive
  | nothingToCool (initial final : α)
  | coolingFactorOutOfRange (alpha : α)
  | reheatFractionOutOfRange (fraction : α)
  | huangLambdaNotPositive
  | minTemperatureNotPositive
  | emptyTemperatureRange (lowest highest : α)
  | stepNotPositive
  | invalidBounds (coordinate : Nat) (lower upper : α)
  | noPottsStates
  | noSuchState (spin state states : Nat)
  | noSuchPlace (event room slot : Nat)
  | penaltyNotPositive
deriving Repr

/-- Why an input is refused. -/
inductive Rejection (α : Type) where
  | misconfigured (problem : Misconfiguration α)
  | emptyState
  | lengthMismatch (expected found : Nat)
  | notFinite (quantity : Quantity) (value : α)
  | matrixNotFinite
deriving Repr

/-- Why there is no result. -/
inductive Failure (α : Type) where
  | rejected (cause : Rejection α)
  | faulted (fault : Fault)
deriving Repr

/-! ## Lifting into the common failure -/

instance {α : Type} : MonadLift (Except Fault) (Except (Failure α)) where
  monadLift := Except.mapError .faulted

instance {α : Type} : MonadLift (Except (Rejection α)) (Except (Failure α)) where
  monadLift := Except.mapError .rejected

/-- Lifting changes the kind of a failure and no success. -/
theorem liftFault_eq_ok_iff {α β : Type} {x : Except Fault β} {b : β} :
    (monadLift x : Except (Failure α) β) = .ok b ↔ x = .ok b := by
  cases x with
  | error fault =>
    constructor
    · intro h
      cases h
    · intro h
      cases h
  | ok c =>
    constructor
    · intro h
      cases h
      rfl
    · intro h
      cases h
      rfl

theorem liftRejection_eq_ok_iff {α β : Type} {x : Except (Rejection α) β} {b : β} :
    (monadLift x : Except (Failure α) β) = .ok b ↔ x = .ok b := by
  cases x with
  | error cause =>
    constructor
    · intro h
      cases h
    · intro h
      cases h
  | ok c =>
    constructor
    · intro h
      cases h
      rfl
    · intro h
      cases h
      rfl

/-- A sequence succeeds when its first part does and the rest succeeds on what that returned. -/
theorem bind_eq_ok_iff {ε β γ : Type} {first : Except ε β} {rest : β → Except ε γ} {c : γ} :
    (first >>= rest) = .ok c ↔ ∃ b, first = .ok b ∧ rest b = .ok c := by
  cases first with
  | error e =>
    constructor
    · intro h
      cases h
    · intro ⟨b, hb, _⟩
      cases hb
  | ok b =>
    constructor
    · intro h
      exact ⟨b, rfl, h⟩
    · intro ⟨b', hb, hrest⟩
      cases hb
      exact hrest

/-- A sequence whose rest cannot fail succeeds when its first part does. -/
theorem exists_bind_eq_ok_iff {ε β γ : Type} {first : Except ε β} {rest : β → γ} :
    (∃ c, (first >>= fun b => .ok (rest b)) = .ok c) ↔ ∃ b, first = .ok b := by
  constructor
  · intro ⟨c, h⟩
    obtain ⟨b, hfirst, -⟩ := bind_eq_ok_iff.mp h
    exact ⟨b, hfirst⟩
  · intro ⟨b, hfirst⟩
    exact ⟨rest b, bind_eq_ok_iff.mpr ⟨b, hfirst, rfl⟩⟩

/-- A check hands nothing on to what comes after it. -/
theorem check_eq_ok_iff {ε γ : Type} {check : Except ε Unit} {rest : Except ε γ} {c : γ} :
    (check >>= fun _ => rest) = .ok c ↔ check = .ok () ∧ rest = .ok c := by
  rw [bind_eq_ok_iff]
  constructor
  · intro ⟨⟨⟩, hcheck, h⟩
    exact ⟨hcheck, h⟩
  · intro ⟨hcheck, h⟩
    exact ⟨(), hcheck, h⟩

/-! ## Checks shared by configurations and models -/

variable {α : Type}

def requireFinite [Scalar α] (quantity : Quantity) (value : α) : Except (Rejection α) Unit :=
  if Scalar.isFinite value then .ok () else .error (.notFinite quantity value)

def requireLength (expected found : Nat) : Except (Rejection α) Unit :=
  if expected = found then .ok () else .error (.lengthMismatch expected found)

/-- Fails with `problem` when the rule is broken. -/
def refuseIf (broken : Bool) (problem : Misconfiguration α) : Except (Rejection α) Unit :=
  if broken then .error (.misconfigured problem) else .ok ()

theorem requireFinite_eq_ok_iff [Scalar α] {quantity : Quantity} {value : α} :
    requireFinite quantity value = .ok () ↔ Scalar.isFinite value = true := by
  unfold requireFinite
  split <;> simp [*]

theorem requireLength_eq_ok_iff {expected found : Nat} :
    requireLength (α := α) expected found = .ok () ↔ expected = found := by
  unfold requireLength
  split <;> simp [*]

theorem refuseIf_eq_ok_iff {broken : Bool} {problem : Misconfiguration α} :
    refuseIf broken problem = .ok () ↔ broken = false := by
  cases broken <;> simp [refuseIf]

/-! ## Wording -/

def Misconfiguration.message : Misconfiguration Float → String
  | .finalTemperatureNotPositive => "Final temperature must be positive"
  | .nothingToCool initial final =>
    let (i, f) := (Decimal.text initial, Decimal.text final)
    s!"Initial temperature ({i}) must exceed final temperature ({f})"
  | .coolingFactorOutOfRange alpha =>
    "Cooling factor alpha must be in (0, 1), got " ++ Decimal.text alpha
  | .reheatFractionOutOfRange fraction =>
    "Reheat temperature fraction must be in (0, 1], got " ++ Decimal.text fraction
  | .huangLambdaNotPositive => "Huang lambda must be positive"
  | .minTemperatureNotPositive => "Minimum temperature must be positive"
  | .emptyTemperatureRange lowest highest =>
    let (l, h) := (Decimal.text lowest, Decimal.text highest)
    s!"Minimum temperature ({l}) must be below maximum temperature ({h})"
  | .stepNotPositive => "Perturbation step must be positive"
  | .invalidBounds coordinate lower upper =>
    let (l, u) := (Decimal.text lower, Decimal.text upper)
    s!"Invalid bounds for coordinate {coordinate}: [{l}, {u}]"
  | .noPottsStates => "A Potts spin needs at least one state"
  | .noSuchState spin state states =>
    s!"Spin {spin} is in state {state}, but the model has {states} states"
  | .noSuchPlace event room slot =>
    s!"Event {event} prefers room {room} slot {slot}, which does not exist"
  | .penaltyNotPositive => "Penalty weight must be positive"

def Rejection.message : Rejection Float → String
  | .misconfigured problem => "Configuration error: " ++ problem.message
  | .emptyState => "Empty state error: Cannot optimize a zero-length state"
  | .lengthMismatch expected found =>
    s!"Dimension mismatch: expected {expected}, found {found}"
  | .notFinite quantity value =>
    "Invalid numeric value: " ++ quantity.label ++ " must be finite, got " ++ Decimal.text value
  | .matrixNotFinite => "Invalid numeric value: QUBO matrix contains a non-finite coefficient"

end ThermalSearch
