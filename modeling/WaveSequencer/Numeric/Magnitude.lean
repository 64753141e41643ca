/-!
The exact size of a finite binary64 value: a natural significand times a power of two.
The remainder and the decimal digits of a value are computed from it in integer arithmetic.
-/
namespace WaveSequencer.Numeric

/-- The number `significand * 2 ^ exponent`. -/
structure Magnitude where
  significand : Nat
  exponent : Int
  deriving DecidableEq, Repr

def exponentField (x : Float) : Nat := ((x.toBits >>> 52) &&& 0x7FF).toNat

def fractionField (x : Float) : Nat := (x.toBits &&& 0xFFFFFFFFFFFFF).toNat

/-- The sign bit, which also tells the two zeros apart. -/
def signBit (x : Float) : Bool := x.toBits >>> 63 == 1

/-- The absolute value of a finite `x`: a zero exponent field marks the subnormal values, which
lack the implicit leading bit. -/
def magnitude (x : Float) : Magnitude :=
  if exponentField x = 0 then ⟨fractionField x, -1074⟩
  else ⟨1 <<< 52 + fractionField x, (exponentField x : Int) - 1075⟩

/-- The value `2 ^ e` for an exponent between -1074 and 1023. -/
def powerOfTwo (e : Int) : Float :=
  if e < -1022 then Float.ofBits (1 <<< (e + 1074).toNat.toUInt64)
  else Float.ofBits ((e + 1023).toNat.toUInt64 <<< 52)

namespace Magnitude

/-- The value of a magnitude that binary64 holds exactly: a significand below `2 ^ 53` and an
exponent in the range of `powerOfTwo`. -/
def toFloat (a : Magnitude) : Float := a.significand.toUInt64.toFloat * powerOfTwo a.exponent

/-- What is left of `a` after taking away `b` as often as it goes, both written over the smaller
of the two exponents. -/
def mod (a b : Magnitude) : Magnitude :=
  if b.exponent ≤ a.exponent then
    ⟨a.significand <<< (a.exponent - b.exponent).toNat % b.significand, b.exponent⟩
  else
    ⟨a.significand % (b.significand <<< (b.exponent - a.exponent).toNat), a.exponent⟩

end Magnitude
end WaveSequencer.Numeric
