namespace ThermalSearch

/-!
# Scalars

Energies, temperatures and coefficients are computed in one kind of number. The library names
the operations it needs and runs on binary floating point (`Float`), which fixes every rounding;
the same definitions read over an exact field say what the rounding is an approximation of.

Nothing here asks the operations to obey a law: a comparison may be false both ways (as with an
undefined float) and an operation may leave the finite numbers. Definitions therefore write each
comparison in the direction that gives undefined numbers their intended fate.
-/

/-- The operations the search algorithms use on numbers. -/
class Scalar (α : Type) extends Add α, Sub α, Mul α, Div α, Neg α, LT α, LE α, BEq α,
    OfScientific α where
  decidableLT : DecidableLT α
  decidableLE : DecidableLE α
  /-- A count as a number. -/
  ofNat : Nat → α
  /-- Neither infinite nor undefined. -/
  isFinite : α → Bool
  /-- Undefined: the outcome of an operation without a meaning. -/
  isNaN : α → Bool
  /-- The energy of a state that is worse than any other. -/
  infinity : α
  exp : α → α
  ln : α → α
  sqrt : α → α
  pow : α → α → α
  /-- The natural number nearest to a number: halves go up, and whatever is negative or
  undefined counts as zero. -/
  nearest : α → Nat

attribute [reducible, instance] Scalar.decidableLT Scalar.decidableLE

namespace Scalar

/-- The greatest value of a 64-bit index. -/
def maxIndex : Nat := UInt64.size - 1

/-- The integer part that `v.toUInt64` keeps is exact up to the greatest index and saturates
there, so the remainder tells on which side of the half `v` lies. -/
def nearestFloat (v : Float) : Nat :=
  let whole := v.toUInt64
  if v - whole.toFloat ≥ 0.5 then min (whole.toNat + 1) maxIndex else whole.toNat

/-- A count below `2 ^ 64` is converted in one rounding by the machine. -/
def countFloat (n : Nat) : Float :=
  if n < UInt64.size then n.toUInt64.toFloat else Float.ofNat n

instance : Scalar Float where
  decidableLT := inferInstance
  decidableLE := inferInstance
  ofNat := countFloat
  isFinite := Float.isFinite
  isNaN := Float.isNaN
  infinity := 1.0 / 0.0
  exp := Float.exp
  ln := Float.log
  sqrt := Float.sqrt
  pow := Float.pow
  nearest := nearestFloat

variable {α : Type} [Scalar α]

/-- The sum from left to right. It starts at negative zero, the neutral element of rounded
addition: `-0 + x` is `x` for every `x`, while `0 + (-0)` is `0`. -/
def sum (xs : List α) : α := xs.foldl (· + ·) (-(0.0))

/-- Keeps `x` between `lo` and `hi`. An undefined `x` stays undefined. -/
def clamp (x lo hi : α) : α :=
  if x < lo then lo else if hi < x then hi else x

/-- The fraction of `count` among `total`, zero when there was nothing to count. -/
def fraction (count total : Nat) : α :=
  if total = 0 then 0.0 else ofNat count / ofNat total

end Scalar

end ThermalSearch
