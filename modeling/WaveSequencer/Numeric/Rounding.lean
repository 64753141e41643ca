import WaveSequencer.Numeric.Magnitude

/-!
Rounding and clipping of binary64 values. Sample counts and phase shifts round halves away from
zero, never to the even neighbour.
-/
namespace WaveSequencer.Numeric

/-- Rounds to the nearest integer, halves away from zero (`Denotes.roundHalfAway`). From `2 ^ 52` on
every value is an integer; below, splitting off the fraction is exact, so that the largest value
below one half rounds to zero. -/
def roundHalfAway (x : Float) : Float :=
  let size := x.abs
  if size < 4503599627370496.0 then
    let whole := size.toUInt64.toFloat
    let rounded := if size - whole ≥ 0.5 then whole + 1.0 else whole
    if signBit x then -rounded else rounded
  else x

/-- The same in single precision, where rounding a widened value loses nothing. -/
def roundHalfAwaySingle (x : Float32) : Float32 := (roundHalfAway x.toFloat).toFloat32

/-- Cuts off the fraction and clips to the range of a sample; an undefined value is zero. -/
def clip (x : Float) : Int16 := x.toInt16

/-- The same for a single precision value. -/
def clipSingle (x : Float32) : Int16 := clip x.toFloat

/-- The whole part as a natural number, if 64 bits hold it. -/
def truncate? (x : Float) : Option Nat :=
  if -1.0 < x && x < 18446744073709551616.0 then some x.toUInt64.toNat else none

/-- The whole part, clipped to the naturals below `2 ^ 64`; an undefined value is zero. -/
def truncate (x : Float) : Nat := x.toUInt64.toNat

/-- A count as a float, rounded to nearest. -/
def ofCount (n : Nat) : Float := n.toUInt64.toFloat

/-- The larger of two values; one that is undefined gives way to the other. -/
def larger (x y : Float) : Float := if x ≤ y || x.isNaN then y else x

/-- The time of what never ends. -/
def infinity : Float := 1.0 / 0.0

abbrev IsPositive (x : Float) : Prop := x.isFinite ∧ 0.0 < x

abbrev IsNonnegative (x : Float) : Prop := x.isFinite ∧ 0.0 ≤ x

end WaveSequencer.Numeric
