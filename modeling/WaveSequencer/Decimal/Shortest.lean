import WaveSequencer.Numeric.Magnitude

/-!
The fewest decimal digits that identify a finite binary64 value. A value stands for the interval
of reals that round to it; the digits are those of the nearest point of the coarsest decimal grid
with a point in that interval.
-/
namespace WaveSequencer.Decimal
open Numeric

/-- The number `digits * 10 ^ exponent`. -/
structure Numeral where
  digits : Nat
  exponent : Int
  deriving DecidableEq, Repr

def digitCount (n : Nat) : Nat := (Nat.toDigits 10 n).length

/-- A value with its rounding interval, all three over one positive denominator. -/
structure RoundingInterval where
  lower : Nat
  value : Nat
  upper : Nat
  denominator : Nat
  /-- The ends round to an even significand, so they belong to the interval. -/
  closed : Bool
  deriving DecidableEq, Repr

namespace RoundingInterval

/-- The reals that round to `a`, from halfway to the value below to halfway to the value above.
Below a power of two the neighbouring values are twice as dense. -/
def ofMagnitude (a : Magnitude) : RoundingInterval :=
  let narrow := a.significand = 1 <<< 52 ∧ -1074 < a.exponent
  let scale := (a.exponent - 2).toNat
  { lower := (if narrow then 4 * a.significand - 1 else 4 * a.significand - 2) <<< scale
    value := (4 * a.significand) <<< scale
    upper := (4 * a.significand + 2) <<< scale
    denominator := 1 <<< (2 - a.exponent).toNat
    closed := a.significand % 2 = 0 }

/-- The least `k` for which the value is below `10 ^ k`, for a positive value. -/
def decimalScale (r : RoundingInterval) : Int :=
  if r.denominator ≤ r.value then digitCount (r.value / r.denominator)
  else 1 - (digitCount ((r.denominator - 1) / r.value) : Int)

/-- The digits `d` over `10 ^ e` lie in the interval. -/
def contains (r : RoundingInterval) (d : Nat) (e : Int) : Bool :=
  let point := d * Nat.pow 10 e.toNat * r.denominator
  let unit := Nat.pow 10 (-e).toNat
  if r.closed then r.lower * unit ≤ point && point ≤ r.upper * unit
  else r.lower * unit < point && point < r.upper * unit

/-- The point of the grid `10 ^ e` in the interval that is nearest to the value, the upper one of
two that are equally near. Only the two points around the value need to be tried. -/
def nearestOnGrid? (r : RoundingInterval) (e : Int) : Option Nat :=
  let value := r.value * Nat.pow 10 (-e).toNat
  let step := r.denominator * Nat.pow 10 e.toNat
  let below := value / step
  match r.contains below e, r.contains (below + 1) e with
  | true, true => some (if 2 * (value % step) < step then below else below + 1)
  | true, false => some below
  | false, true => some (below + 1)
  | false, false => none

end RoundingInterval

def Numeral.strip (d : Numeral) : Numeral :=
  if h : 0 < d.digits ∧ d.digits % 10 = 0 then
    Numeral.strip ⟨d.digits / 10, d.exponent + 1⟩
  else d
termination_by d.digits
decreasing_by exact Nat.div_lt_self h.1 (by decide)

/-- The value itself: every power of two has a finite decimal expansion. -/
def exact (a : Magnitude) : Numeral :=
  if 0 ≤ a.exponent then ⟨a.significand <<< a.exponent.toNat, 0⟩
  else ⟨a.significand * Nat.pow 5 (-a.exponent).toNat, a.exponent⟩

/-- The shortest digits of a magnitude. Seventeen digits always suffice, so grids of one to
seventeen digits are tried. -/
def shortest (a : Magnitude) : Numeral :=
  if a.significand = 0 then ⟨0, 0⟩
  else
    let r := RoundingInterval.ofMagnitude a
    let grid? := (List.range 17).findSome? fun n =>
      let e := r.decimalScale - (n + 1 : Nat)
      (r.nearestOnGrid? e).map (Numeral.mk · e)
    (grid?.getD (exact a)).strip

end WaveSequencer.Decimal
