import HeapScript.Value.Operator

/-!
# Array keys

An array is indexed by integers and strings. Every other scalar is first turned into one of
them, and a string that is the decimal writing of an integer counts as that integer.
-/

namespace HeapScript

namespace Bytes

/-- The most digits that a string can have and still count as an integer key. -/
def keyDigits : Nat := 18

/-- Whether a string is the writing of an integer key: an optional minus sign and up to 18
digits without a leading zero, `0` itself but not `-0`. -/
def isCanonicalInt (s : Bytes) : Bool :=
  let (negative, digits) := match s with
    | b :: rest => if b = ascii '-' then (true, rest) else (false, b :: rest)
    | [] => (false, [])
  match digits with
  | [] => false
  | d :: more =>
    digits.length ≤ keyDigits && digits.all isDigit &&
      !(d == ascii '0' && (!more.isEmpty || negative))

end Bytes

namespace Value

/-- The integer or string key that a value stands for; arrays and objects stand for none and
are left alone. -/
def normalizeKey : Value → Value
  | int i => int i
  | str s => if Bytes.isCanonicalInt s then int (Bytes.toInt s) else str s
  | bool b => int (if b then 1 else 0)
  | float f => int (Float.truncSat f)
  | null => str []
  | v => v

/-- One round of the FNV-1a hash. -/
def hashByte (h : UInt32) (b : UInt8) : UInt32 := (h ^^^ b.toUInt32) * 16777619

def hashBytes (bs : Bytes) : UInt32 := bs.foldl hashByte 2166136261

/-- The eight bytes of an integer, least significant first. -/
def littleEndian (i : Int64) : Bytes :=
  (List.range 8).map fun k => (i.toUInt64 >>> (8 * k).toUInt64).toUInt8

/-- The hash of a key: of the bytes of a string, or of the eight bytes of an integer. -/
def hashKey : Value → UInt32
  | int i => hashBytes (littleEndian i)
  | str s => hashBytes s
  | _ => hashBytes []

/-- The value stored under a key, null where there is none. -/
def lookup (entries : List (Value × Value)) (key : Value) : Value :=
  match entries.find? fun entry => strictEq entry.1 key.normalizeKey with
  | some (_, v) => v
  | none => null

end Value

end HeapScript
