import HeapScript.Machine.Heap

/-!
# Arithmetic of the machine

The meaning of the two-operand instructions. Integers wrap around; a division or remainder by
zero, and the one quotient that does not fit, are traps.
-/

namespace HeapScript.Machine

inductive TrapReason where
  | unreachable
  | stepLimit
  | callStackExhausted
  | host (message : String)
  | notStruct
  | notArray
  | castFailed (type : Int)
  | negativeLength
  | dataOutOfBounds
  | indexOutOfBounds (index : Int32) (length : Nat)
  | copyOutOfBounds
  | divisionByZero
  | overflow
  | remainderByZero
  | unknownOpcode (code : UInt16)
  deriving DecidableEq

def TrapReason.message : TrapReason → String
  | unreachable => "unreachable"
  | stepLimit => "step limit exceeded"
  | callStackExhausted => "call stack exhausted"
  | host message => message
  | notStruct => "null or non-struct reference"
  | notArray => "null or non-array reference"
  | castFailed t => "cast to type " ++ toString t ++ " failed"
  | negativeLength => "negative array length"
  | dataOutOfBounds => "data segment access out of bounds"
  | indexOutOfBounds i n =>
    "array index " ++ toString i.toInt ++ " out of bounds (len " ++ toString n ++ ")"
  | copyOutOfBounds => "array.copy out of bounds"
  | divisionByZero => "integer division by zero"
  | overflow => "integer overflow"
  | remainderByZero => "integer remainder by zero"
  | unknownOpcode code => "unknown opcode " ++ (Instr.unknown code).name

def flag (b : Bool) : Int32 := if b then 1 else 0

def I32Op.eval (op : I32Op) (a b : Int32) : Except TrapReason Int32 :=
  match op with
  | eq => .ok (flag (a == b))
  | ne => .ok (flag (a != b))
  | ltS => .ok (flag (a < b))
  | gtS => .ok (flag (a > b))
  | leS => .ok (flag (a ≤ b))
  | geS => .ok (flag (a ≥ b))
  | ltU => .ok (flag (a.toUInt32 < b.toUInt32))
  | geU => .ok (flag (a.toUInt32 ≥ b.toUInt32))
  | add => .ok (a + b)
  | sub => .ok (a - b)
  | mul => .ok (a * b)
  | and => .ok (a &&& b)
  | or => .ok (a ||| b)
  | xor => .ok (a ^^^ b)
  | shl => .ok (a.toUInt32 <<< (b.toUInt32 % 32)).toInt32
  | shrU => .ok (a.toUInt32 >>> (b.toUInt32 % 32)).toInt32
  | remU => if b = 0 then .error .remainderByZero else .ok (a.toUInt32 % b.toUInt32).toInt32

def I64Rel.eval (op : I64Rel) (a b : Int64) : Bool :=
  match op with
  | eq => a == b
  | ne => a != b
  | ltS => a < b
  | gtS => a > b
  | leS => a ≤ b
  | geS => a ≥ b

def I64Op.eval (op : I64Op) (a b : Int64) : Except TrapReason Int64 :=
  match op with
  | add => .ok (a + b)
  | sub => .ok (a - b)
  | mul => .ok (a * b)
  | divS =>
    if b = 0 then .error .divisionByZero
    else if a = Int64.minValue ∧ b = -1 then .error .overflow
    else .ok (a / b)
  | remS => if b = 0 then .error .remainderByZero else .ok (if b = -1 then 0 else a % b)
  | divU => if b = 0 then .error .divisionByZero else .ok (a.toUInt64 / b.toUInt64).toInt64
  | remU => if b = 0 then .error .remainderByZero else .ok (a.toUInt64 % b.toUInt64).toInt64
  | and => .ok (a &&& b)
  | or => .ok (a ||| b)
  | xor => .ok (a ^^^ b)
  | shl => .ok (a.toUInt64 <<< (b.toUInt64 % 64)).toInt64
  | shrS => .ok (a >>> (b.toUInt64 % 64).toInt64)
  | shrU => .ok (a.toUInt64 >>> (b.toUInt64 % 64)).toInt64

def F64Rel.eval (op : F64Rel) (a b : Float) : Bool :=
  match op with
  | eq => a == b
  | ne => a != b
  | lt => a < b
  | gt => a > b
  | le => a ≤ b
  | ge => a ≥ b

def F64Op.eval (op : F64Op) (a b : Float) : Float :=
  match op with
  | add => a + b
  | sub => a - b
  | mul => a * b
  | div => a / b

end HeapScript.Machine
