import HeapScript.Analysis.Storage
import HeapScript.Compile.Slots
import HeapScript.Library.Shape

/-!
# Representations

How the value of an expression lies on the operand stack: as a boxed value, as a plain number or
truth value, or not at all.
-/

namespace HeapScript.Compile

open Machine Library

/-- The representation of a value on the operand stack. -/
inductive Rep where
  | boxed | int | float | bool | void
  deriving DecidableEq, Repr

namespace Rep

def ofCode (n : Int) : Rep :=
  match n with
  | 0 => boxed
  | 1 => int
  | 2 => float
  | 3 => bool
  | _ => void

def name : Rep → String
  | boxed => "boxed"
  | int => "int"
  | float => "float"
  | bool => "bool"
  | void => "void"

def ofType : StaticType → Rep
  | .int => int
  | .float => float
  | .unknown => boxed

def valType : Rep → ValType
  | boxed => Shape.valueRef
  | int => .i64
  | float => .f64
  | bool => .i32
  | void => .void

def slotKind : Rep → SlotKind
  | int => .int
  | float => .float
  | bool => .bool
  | boxed | void => .ref

end Rep

end HeapScript.Compile
