import WaveSequencer.Decimal.Shortest

/-!
Floats in messages: the shortest digits that identify the value, always positional, without a
fraction for whole numbers.
-/
namespace WaveSequencer.Decimal
open Numeric

/-- The digits with the decimal point at its place and as many zeros as that takes. -/
def Numeral.positional (d : Numeral) : String :=
  let digits := Nat.toDigits 10 d.digits
  let places := (-d.exponent).toNat
  if places = 0 then String.ofList (digits ++ List.replicate d.exponent.toNat '0')
  else if places < digits.length then
    let whole := digits.length - places
    String.ofList (digits.take whole ++ '.' :: digits.drop whole)
  else
    String.ofList ('0' :: '.' :: List.replicate (places - digits.length) '0' ++ digits)

def text (x : Float) : String :=
  if x.isNaN then "NaN"
  else
    let size := if x.isInf then "inf" else (shortest (magnitude x)).positional
    if signBit x then "-" ++ size else size

end WaveSequencer.Decimal
