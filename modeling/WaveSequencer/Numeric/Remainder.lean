import WaveSequencer.Numeric.Magnitude

/-!
Remainders of binary64 division. `remainder` is exact and takes the sign of the dividend;
`wrap` brings a value into a half-open period.
-/
namespace WaveSequencer.Numeric

/-- The exact remainder of `x / y` with the quotient truncated, so that it has the sign of `x`.
There is none for an infinite or undefined `x`, nor for a zero or undefined `y`. -/
def remainder (x y : Float) : Float :=
  if x.isNaN || y.isNaN || x.isInf || y == 0.0 then Float.ofBits 0x7FF8000000000000
  else if x.abs < y.abs then x
  else
    let r := ((magnitude x).mod (magnitude y)).toFloat
    if signBit x then -r else r

/-- The remainder moved into `[0, period)`, for a positive period. -/
def positiveRemainder (x period : Float) : Float :=
  let r := remainder x period
  if r < 0.0 then r + period else r

/-- Wraps `x` circularly into `[lower, upper)`. -/
def wrap (x lower upper : Float) : Float :=
  lower + positiveRemainder (x - lower) (upper - lower)

/-- The position of `x` in a circle of the given circumference. A value just below zero can round
up to the whole circumference, which is the same point as zero. -/
def wrapCircle (x circumference : Float) : Float :=
  let r := positiveRemainder x circumference
  if 0.0 ≤ r ∧ r < circumference then r else 0.0

theorem wrapCircle_mem (x : Float) {circumference : Float} (h : 0.0 < circumference) :
    0.0 ≤ wrapCircle x circumference ∧ wrapCircle x circumference < circumference := by
  by_cases hr : 0.0 ≤ positiveRemainder x circumference ∧
      positiveRemainder x circumference < circumference
  · simp only [wrapCircle, if_pos hr]
    exact hr
  · simp only [wrapCircle, if_neg hr]
    exact ⟨by decide, h⟩

end WaveSequencer.Numeric
