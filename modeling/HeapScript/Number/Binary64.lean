/-!
# Binary64 numbers

Conversions between 64-bit integers and floats, and the exact value of a finite float as a
mantissa times a power of two. Rounding to an integer goes toward zero and stays inside the
64-bit range.
-/

namespace HeapScript

/-- The float nearest to a 64-bit integer, ties to even. -/
def Int64.nearestFloat (x : Int64) : Float :=
  if x < 0 then -(0 - x).toUInt64.toFloat else x.toUInt64.toFloat

/-- A float rounded toward zero; NaN gives 0 and values out of range the nearest bound. -/
def Float.truncSat (f : Float) : Int64 :=
  if f.isNaN then 0
  else if f ≥ 9223372036854775808.0 then Int64.maxValue
  else if f ≤ -9223372036854775808.0 then Int64.minValue
  else if f < 0 then 0 - (-f).toUInt64.toInt64
  else f.toUInt64.toInt64

structure Scaled where
  negative : Bool
  mantissa : Nat
  exponent : Int
  /-- Whether the next float below is only half as far away as the next one above. -/
  narrowBelow : Bool

def Float.scaled (f : Float) : Scaled :=
  let bits := f.toBits
  let fraction := (bits &&& 0x000fffffffffffff).toNat
  let biased := (bits >>> 52 &&& 0x7ff).toNat
  let negative := bits >>> 63 == 1
  if biased == 0 then
    { negative, mantissa := fraction, exponent := -1074, narrowBelow := false }
  else
    { negative, mantissa := 0x0010000000000000 + fraction, exponent := (biased : Int) - 1075,
      narrowBelow := fraction == 0 && biased > 1 }

end HeapScript
