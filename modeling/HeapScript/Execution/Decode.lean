import HeapScript.Library.Shape
import HeapScript.Machine.Heap

/-!
# Decoding values

Reads the value that a record on the heap stands for. Records are followed to a bounded depth;
the size of the heap is deep enough for every value without a cycle.
-/

namespace HeapScript.Execution

open Machine Library

/-- What an operand is. -/
inductive Found where
  | int32 | int64 | float64 | array | struct | nothing
  deriving DecidableEq, Repr

def Found.name : Found → String
  | int32 => "int32"
  | int64 => "int64"
  | float64 => "float64"
  | array => "*engine.Array"
  | struct => "*engine.Struct"
  | nothing => "<nil>"

def Found.of (h : Heap) : Val → Found
  | .i32 _ => int32
  | .i64 _ => int64
  | .f64 _ => float64
  | .null => nothing
  | v => if (h.array? v).isSome then array else struct

inductive DecodeError where
  | notRecord (found : Found)
  | notValue (type : Int)
  | unknownTag (tag : Int)
  | badStore (found : Found)
  | noObject
  /-- A record without the fields that its tag asks for. -/
  | broken
  deriving DecidableEq, Repr

def DecodeError.message : DecodeError → String
  | notRecord found => "not a value record: " ++ found.name
  | notValue type => "record of type " ++ toString type ++ " is not a value"
  | unknownTag tag => "unknown tag " ++ toString tag
  | badStore found => "array with backing store " ++ found.name
  | noObject => "object value without an object record"
  | broken => "broken record"

abbrev Decode := Except DecodeError

namespace Decode

def need {α : Type} : Option α → Decode α
  | some a => .ok a
  | none => .error .broken

def int32 (fields : Array Val) (i : Nat) : Decode Int32 :=
  match fields[i]? with
  | some (.i32 v) => .ok v
  | _ => .error .broken

def int64 (fields : Array Val) (i : Nat) : Decode Int64 :=
  match fields[i]? with
  | some (.i64 v) => .ok v
  | _ => .error .broken

def float (fields : Array Val) (i : Nat) : Decode Float :=
  match fields[i]? with
  | some (.f64 v) => .ok v
  | _ => .error .broken

def field (fields : Array Val) (i : Nat) : Decode Val := need fields[i]?

def array (h : Heap) (fields : Array Val) (i : Nat) : Decode (Array Val) := do
  let v ← field fields i
  return (← need (h.array? v)).2.2

/-- The bytes of a string field; a null reference is the empty string. -/
def bytes (h : Heap) (v : Val) : Decode Bytes :=
  match h.array? v with
  | some (_, _, elems) => need (Heap.bytes? elems)
  | none => .ok []

/-- The elements of a dense array from a position on, as many as asked for. -/
def denseEntries (decode : Val → Decode Value) (elems : Array Val) :
    (count pos : Nat) → Decode (List (Value × Value))
  | 0, _ => .ok []
  | count + 1, pos => do
    let v ← need elems[pos]?
    if v.isNull then denseEntries decode elems count (pos + 1)
    else
      let value ← decode v
      return (.int (Int64.ofNat pos), value) :: (← denseEntries decode elems count (pos + 1))

/-- The entries of a hash table from a position on, as many as asked for. -/
def hashEntries (h : Heap) (decode : Val → Decode Value) (slots : Array Val) :
    (count : Nat) → (pos : Int) → Decode (List (Value × Value))
  | 0, _ => .ok []
  | count + 1, pos => do
    let v ← need (if pos < 0 then none else slots[pos.toNat]?)
    let (_, entry) ← need (h.struct? v)
    let key ← decode (← field entry EntryField.key.index)
    let value ← decode (← field entry EntryField.value.index)
    return (key, value) :: (← hashEntries h decode slots count (pos + 1))

def entries (h : Heap) (decode : Val → Decode Value) (fields : Array Val) :
    Decode (List (Value × Value)) := do
  let store ← field fields ValueField.ref.index
  match h.array? store, h.struct? store with
  | some (_, _, elems), _ =>
    let n ← int64 fields ValueField.int.index
    denseEntries decode elems n.toInt.toNat 0
  | none, some (_, table) =>
    let slots ← array h table HashField.buckets.index
    let base ← int32 table HashField.bucketCount.index
    let count ← int32 table HashField.count.index
    hashEntries h decode slots count.toInt.toNat base.toInt
  | none, none => .error (.badStore (.of h store))

def object (h : Heap) (decode : Val → Decode Value) (fields : Array Val) :
    Decode (Int32 × List Value) := do
  let ref ← field fields ValueField.ref.index
  match h.struct? ref with
  | some (_, record) =>
    if h.typeOf ref = Shape.object then
      let classId ← int32 record ObjectField.classId.index
      let props ← array h record ObjectField.props.index
      return (classId, ← props.toList.mapM decode)
    else .error .noObject
  | none => .error .noObject

/-- The value of a record with a tag. Arrays and objects are told apart by their address. -/
def record (h : Heap) (decode : Val → Decode Value) (addr : Nat) (fields : Array Val) :
    Decode Value := do
  let tag ← int32 fields ValueField.tag.index
  match Tag.ofCode? tag.toInt with
  | none => .error (.unknownTag tag.toInt)
  | some .null => return .null
  | some .bool => return .bool ((← int64 fields ValueField.int.index) != 0)
  | some .int => return .int (← int64 fields ValueField.int.index)
  | some .float => return .float (← float fields ValueField.float.index)
  | some .string => return .str (← bytes h (← field fields ValueField.str.index))
  | some .array => return .array (addr + 1) (← entries h decode fields)
  | some .object =>
    let (classId, props) ← object h decode fields
    return .object (addr + 1) classId props

def value (h : Heap) : (depth : Nat) → Val → Decode Value
  | 0, _ => .error .broken
  | depth + 1, v =>
    match h.struct? v with
    | some (addr, fields) =>
      if h.typeOf v = Shape.value then record h (value h depth) addr fields
      else .error (.notValue (h.typeOf v))
    | none => if v.isNull then .ok .null else .error (.notRecord (.of h v))

end Decode

/-- The value of an operand; a null reference is null. -/
def decode (h : Heap) (v : Val) : Decode Value := Decode.value h (h.size + 1) v

end HeapScript.Execution
