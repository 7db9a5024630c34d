namespace ThermalSearch.Decimal

/-!
# Decimal text of a binary number

A binary64 number is written with the fewest decimal digits that read back as the same number,
always positionally: no exponent, no trailing point.

A positive number stands for the interval of reals that round to it. The shortest decimal in that
interval lies on the coarsest grid of powers of ten that has a point inside, and on that grid it
is one of the two neighbours of the number itself, so two candidates per grid suffice.
-/

/-- A positive finite number and the reals that round to it, all in units of `1 / unit`. -/
structure Interval where
  low : Nat
  value : Nat
  high : Nat
  unit : Nat
  /-- The ends round to the number when its significand is even. -/
  closed : Bool

namespace Interval

/-- The interval of the number `significand * 2 ^ (exponent - 1074)`. Below a power of two the
spacing halves, so the lower half gap is a quarter of the upper spacing there; quarters of the
spacing are the units in which all three points are whole. -/
def ofBinary (significand exponent : Nat) : Interval :=
  let belowGap := if significand = 1 <<< 52 ∧ 0 < exponent then 1 else 2
  let scale := 1 <<< exponent
  { low := (4 * significand - belowGap) * scale
    value := 4 * significand * scale
    high := (4 * significand + 2) * scale
    unit := 1 <<< 1076
    closed := significand % 2 = 0 }

def contains (r : Interval) (point : Nat) : Bool :=
  if r.closed then r.low ≤ point && point ≤ r.high else r.low < point && point < r.high

/-- The interval measured in units that are `factor` times finer. -/
def refine (r : Interval) (factor : Nat) : Interval :=
  { r with low := r.low * factor, value := r.value * factor, high := r.high * factor }

/-- The multiple of `step` inside the interval that is nearest to the number, as the number of
steps. Of two equally near ones the greater is taken. -/
def nearestOnGrid (r : Interval) (step : Nat) : Option Nat :=
  let below := r.value / step
  let above := below + 1
  match r.contains (below * step), r.contains (above * step) with
  | true, true => some (if r.value - below * step < above * step - r.value then below else above)
  | true, false => some below
  | false, true => some above
  | false, false => none

/-- The nearest number in the interval of the form `digits * 10 ^ power`. -/
def onPower (r : Interval) (power : Int) : Option Nat :=
  match power with
  | .ofNat p => r.nearestOnGrid (r.unit * Nat.pow 10 p)
  | .negSucc p => (r.refine (Nat.pow 10 (p + 1))).nearestOnGrid r.unit

/-- Searches ever finer grids, from `10 ^ power` downwards. -/
def search (r : Interval) : Nat → Int → Option (Nat × Int)
  | 0, _ => none
  | grids + 1, power =>
    match r.onPower power with
    | some digits => some (digits, power)
    | none => search r grids (power - 1)

/-- The shortest decimal `digits * 10 ^ power` in the interval. Binary64 lies below `10 ^ 309`,
and `10 ^ (-324)` is finer than its finest spacing, so one of these grids always has a point. -/
def shortest (r : Interval) : Nat × Int := (r.search 634 309).getD (0, 0)

end Interval

/-- `digits * 10 ^ power` written out with all its places. -/
def positional (digits : Nat) (power : Int) : String :=
  let text := toString digits
  match power with
  | .ofNat p => if digits = 0 then text else text ++ String.ofList (List.replicate p '0')
  | .negSucc p =>
    let places := p + 1
    let padded := List.replicate (places + 1 - text.length) '0' ++ text.toList
    let whole := padded.length - places
    String.ofList (padded.take whole) ++ "." ++ String.ofList (padded.drop whole)

/-- The text of a binary64 number. Zero keeps its sign; the sign of an undefined number does not
show. -/
def text (x : Float) : String :=
  let bits := x.toBits.toNat
  let sign := if bits < UInt64.size / 2 then "" else "-"
  let exponent := (bits >>> 52) % (1 <<< 11)
  let stored := bits % (1 <<< 52)
  if exponent = 2047 then
    if stored = 0 then sign ++ "inf" else "NaN"
  else if exponent = 0 ∧ stored = 0 then
    sign ++ "0"
  else
    let interval :=
      if exponent = 0 then Interval.ofBinary stored 0
      else Interval.ofBinary (stored + (1 <<< 52)) (exponent - 1)
    let (digits, power) := interval.shortest
    sign ++ positional digits power

end ThermalSearch.Decimal
