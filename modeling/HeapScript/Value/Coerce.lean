import HeapScript.Value.Basic

/-!
# Coercions

How a value of any kind is read as a number, a truth value or a string. A string is numeric
when it is an optional sign followed by digits with at most one point among them; integers read
from strings wrap around at 64 bits.
-/

namespace HeapScript

/-! ## Numeric strings -/

inductive NumericForm where
  | int
  | float
  deriving DecidableEq, Repr

namespace NumericForm

/-- The tag of the number a numeric string denotes. -/
def tag : NumericForm → Tag
  | int => .int
  | float => .float

end NumericForm

namespace Bytes

def ascii (c : Char) : UInt8 := c.toNat.toUInt8

def isDigit (b : UInt8) : Bool := ascii '0' ≤ b && b ≤ ascii '9'

def digitValue (b : UInt8) : Nat := b.toNat - 48

/-- Splits off a leading sign; true for a minus. -/
def unsigned : Bytes → Bool × Bytes
  | b :: rest =>
    if b = ascii '-' then (true, rest)
    else if b = ascii '+' then (false, rest)
    else (false, b :: rest)
  | [] => (false, [])

def numericForm? (s : Bytes) : Option NumericForm :=
  let body := (unsigned s).2
  let point := ascii '.'
  if body.all fun b => isDigit b || b == point then
    if body.any isDigit then
      match body.count point with
      | 0 => some .int
      | 1 => some .float
      | _ => none
    else none
  else none

/-- The integer of a digit string, wrapping around at 64 bits. -/
def digitsToInt (digits : Bytes) : Int64 :=
  digits.foldl (fun acc b => acc * 10 + Int64.ofNat (digitValue b)) 0

/-- The integer a string of integer form denotes, wrapping around at 64 bits. -/
def toInt (s : Bytes) : Int64 :=
  let (negative, digits) := unsigned s
  if negative then 0 - digitsToInt digits else digitsToInt digits

/-- Accumulates the digits of a float string: the digits read so far as one number, the power
of ten to divide by, and whether the point has been passed. -/
def scanFloat : Bytes → (acc scale : Float) → (afterPoint : Bool) → Float × Float
  | [], acc, scale, _ => (acc, scale)
  | b :: rest, acc, scale, afterPoint =>
    if b = ascii '.' then scanFloat rest acc scale true
    else
      let acc := acc * 10 + (digitValue b).toUInt64.toFloat
      scanFloat rest acc (if afterPoint then scale * 10 else scale) afterPoint

/-- The float a string of float form denotes: all its digits divided by a power of ten. -/
def toFloat (s : Bytes) : Float :=
  let (negative, body) := unsigned s
  let (acc, scale) := scanFloat body 0 1 false
  let magnitude := acc / scale
  if negative then -magnitude else magnitude

end Bytes

/-! ## Values as numbers, truth values and strings -/

namespace Value

/-- Whether a value is an Int, a Float or a numeric string. -/
def isNumeric : Value → Bool
  | int _ | float _ => true
  | str s => (Bytes.numericForm? s).isSome
  | _ => false

/-- The number, Int or Float, that a value stands for; 0 where there is none. -/
def toNumber : Value → Value
  | int i => int i
  | float f => float f
  | bool b => int (if b then 1 else 0)
  | str s =>
    match Bytes.numericForm? s with
    | some .int => int (Bytes.toInt s)
    | some .float => float (Bytes.toFloat s)
    | none => int 0
  | _ => int 0

def toFloat (v : Value) : Float :=
  match v.toNumber with
  | float f => f
  | int i => Int64.nearestFloat i
  | _ => 0

/-- A value as an integer, floats rounded toward zero within the range. -/
def toInt (v : Value) : Int64 :=
  match v.toNumber with
  | float f => Float.truncSat f
  | int i => i
  | _ => 0

/-- The truth of a value: everything but null, false, zeros, the empty string and the empty
array is true. -/
def toBool : Value → Bool
  | null => false
  | bool b => b
  | int i => i != 0
  | float f => f != 0
  | str s => !s.isEmpty
  | array _ entries => !entries.isEmpty
  | object .. => true

/-- The decimal digits of an integer with a minus sign where it is negative. -/
def intBytes (i : Int64) : Bytes := textBytes (toString i.toInt)

/-- A value as a string, the way it is printed. -/
def toBytes : Value → Bytes
  | null => []
  | bool b => if b then textBytes "1" else []
  | int i => intBytes i
  | float f => textBytes (displayFloat f)
  | str s => s
  | array .. => textBytes "Array"
  | object .. => textBytes "Object"

end Value

end HeapScript
