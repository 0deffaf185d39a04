import HeapScript.Machine.Module

/-!
# Operands and the heap

The machine computes with integers, floats and references into a heap of records and arrays.
A reference is an address; addresses are handed out in order and never given back.
-/

namespace HeapScript.Machine

inductive Val where
  | i32 (v : Int32)
  | i64 (v : Int64)
  | f64 (v : Float)
  | null
  | ref (addr : Nat)
  deriving Inhabited

namespace Val

/-- The value of a slot of a given type before anything is stored there. -/
def zero : ValType → Val
  | .i32 | .i8 => i32 0
  | .i64 => i64 0
  | .f64 => f64 0
  | _ => null

def ofBool (b : Bool) : Val := i32 (if b then 1 else 0)

def isNull : Val → Bool
  | null => true
  | _ => false

/-- Whether two operands are the same: equal numbers of one kind, or one reference. -/
def same : Val → Val → Bool
  | i32 a, i32 b => a == b
  | i64 a, i64 b => a == b
  | f64 a, f64 b => a == b
  | null, null => true
  | ref a, ref b => a == b
  | _, _ => false

end Val

/-- A record or an array on the heap, with the index of its type. -/
inductive Cell where
  | struct (type : Int) (fields : Array Val)
  | array (type : Int) (elems : Array Val)
  deriving Inhabited

def Cell.type : Cell → Int
  | struct t _ => t
  | array t _ => t

abbrev Heap := Array Cell

namespace Heap

def alloc (h : Heap) (c : Cell) : Val × Heap := (.ref h.size, h.push c)

def struct? (h : Heap) : Val → Option (Nat × Array Val)
  | .ref a =>
    match h[a]? with
    | some (.struct _ fields) => some (a, fields)
    | _ => none
  | _ => none

def array? (h : Heap) : Val → Option (Nat × Int × Array Val)
  | .ref a =>
    match h[a]? with
    | some (.array t elems) => some (a, t, elems)
    | _ => none
  | _ => none

def setField (h : Heap) (addr field : Nat) (v : Val) : Heap :=
  h.modify addr fun
    | .struct t fields => .struct t (fields.setIfInBounds field v)
    | c => c

def setElem (h : Heap) (addr index : Nat) (v : Val) : Heap :=
  h.modify addr fun
    | .array t elems => .array t (elems.setIfInBounds index v)
    | c => c

/-- Stores consecutive elements into the array at an address. -/
def setElems (h : Heap) (addr start : Nat) (vs : Array Val) : Heap :=
  h.modify addr fun
    | .array t elems =>
      .array t (vs.foldl (fun (state : Array Val × Nat) v =>
        (state.1.setIfInBounds state.2 v, state.2 + 1)) (elems, start)).1
    | c => c

/-- The heap type of an operand, -2 for whatever is not a reference to a cell. -/
def typeOf (h : Heap) : Val → Int
  | .ref a => (h[a]?.map Cell.type).getD (-2)
  | _ => -2

def allocBytes (h : Heap) (type : Int) (bs : Bytes) : Val × Heap :=
  h.alloc (.array type (bs.map fun b => Val.i32 b.toUInt32.toInt32).toArray)

def byte? : Val → Option UInt8
  | .i32 v => some v.toUInt32.toUInt8
  | _ => none

/-- The contents of an array of bytes, if its elements are 32-bit integers. -/
def bytes? (elems : Array Val) : Option Bytes := elems.toList.mapM byte?

end Heap

end HeapScript.Machine
