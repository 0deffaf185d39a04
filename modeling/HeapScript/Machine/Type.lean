/-!
# Value types and type definitions

The types that locals, fields, parameters and results are declared with, and the entries of
the type section of a module: function signatures, record types and array types.
-/

namespace HeapScript.Machine

/-- The heap type index that stands for any reference. -/
def anyHeap : Int := -1

inductive ValType where
  /-- No value, the result of an empty block. -/
  | void
  | i32
  | i64
  | f64
  /-- A byte, only as an element of an array. -/
  | i8
  /-- A nullable reference to the heap type with this index, or to any. -/
  | ref (heap : Int)
  /-- A type code without a meaning. -/
  | unknown (code : UInt8)
  deriving DecidableEq, Repr, Inhabited

namespace ValType

def anyref : ValType := .ref anyHeap

def ofCode (n : UInt8) : ValType :=
  match n with
  | 0 => void
  | 1 => i32
  | 2 => i64
  | 3 => f64
  | 4 => i8
  | 5 => ref 0
  | n => unknown n

def text : ValType → String
  | void => "void"
  | i32 => "i32"
  | i64 => "i64"
  | f64 => "f64"
  | i8 => "i8"
  | ref heap => if heap = anyHeap then "anyref" else "(ref null " ++ toString heap ++ ")"
  | unknown _ => "unknown"

/-- The number of values a block with this result type leaves. -/
def arity : ValType → Nat
  | void => 0
  | _ => 1

end ValType

structure Field where
  type : ValType
  isMutable : Bool
  deriving DecidableEq, Repr, Inhabited

def Field.text (f : Field) : String :=
  if f.isMutable then "(mut " ++ f.type.text ++ ")" else f.type.text

inductive TypeDef where
  | func (params results : List ValType)
  | struct (fields : List Field)
  | array (elem : Field)
  deriving DecidableEq, Repr

namespace TypeDef

def shapeName (n : UInt8) : String :=
  match n with
  | 0 => "func"
  | 1 => "struct"
  | 2 => "array"
  | _ => "unknown"

def text : TypeDef → String
  | func params results =>
    "(func" ++ String.join (params.map fun p => " (param " ++ p.text ++ ")") ++
      String.join (results.map fun r => " (result " ++ r.text ++ ")") ++ ")"
  | struct fields => "(struct" ++ String.join (fields.map fun f => " (field " ++ f.text ++ ")") ++ ")"
  | array elem => "(array " ++ elem.text ++ ")"

/-- The parameters of a signature; other definitions have none. -/
def params : TypeDef → List ValType
  | func params _ => params
  | _ => []

/-- The results of a signature; other definitions have none. -/
def results : TypeDef → List ValType
  | func _ results => results
  | _ => []

/-- The number of fields of a record type; other definitions have none. -/
def fieldCount : TypeDef → Nat
  | struct fields => fields.length
  | _ => 0

/-- The element type of an array type; other definitions hold nothing. -/
def elem : TypeDef → ValType
  | array elem => elem.type
  | _ => .void

def isFunc : TypeDef → Bool
  | func .. => true
  | _ => false

end TypeDef

end HeapScript.Machine
