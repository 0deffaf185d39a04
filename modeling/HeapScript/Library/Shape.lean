import HeapScript.Machine.Module
import HeapScript.Value.Basic

/-!
# Heap shapes

How values lie on the heap of the machine. Every module starts with these types, so their
indices are fixed.
-/

namespace HeapScript.Library

open Machine

namespace Shape

def bytes : Int := 0

def value : Int := 1

def dense : Int := 2

def entry : Int := 3

/-- The slots of hash tables. -/
def buckets : Int := 4

def hash : Int := 5

def object : Int := 6

def valueRef : ValType := .ref value

def bytesRef : ValType := .ref bytes

def denseRef : ValType := .ref dense

def entryRef : ValType := .ref entry

def bucketsRef : ValType := .ref buckets

def hashRef : ValType := .ref hash

/-- The type definitions, in the order of their indices. -/
def definitions : Array TypeDef :=
  #[.array ⟨.i8, true⟩,
    .struct [⟨.i32, true⟩, ⟨.i64, true⟩, ⟨.f64, true⟩, ⟨bytesRef, true⟩, ⟨.anyref, true⟩],
    .array ⟨valueRef, true⟩,
    .struct [⟨valueRef, false⟩, ⟨valueRef, true⟩, ⟨.i32, false⟩, ⟨.i32, true⟩],
    .array ⟨entryRef, true⟩,
    .struct [⟨bucketsRef, true⟩, ⟨.i32, true⟩, ⟨.i32, true⟩, ⟨.i64, true⟩],
    .struct [⟨.i32, false⟩, ⟨denseRef, false⟩]]

end Shape

inductive ValueField where
  | tag | int | float | str | ref
  deriving DecidableEq

inductive EntryField where
  | key | value | hash | next
  deriving DecidableEq

inductive HashField where
  | buckets | bucketCount | count | nextKey
  deriving DecidableEq

inductive ObjectField where
  | classId | props
  deriving DecidableEq

def ValueField.index : ValueField → Nat
  | tag => 0
  | int => 1
  | float => 2
  | str => 3
  | ref => 4

def EntryField.index : EntryField → Nat
  | key => 0
  | value => 1
  | hash => 2
  | next => 3

def HashField.index : HashField → Nat
  | buckets => 0
  | bucketCount => 1
  | count => 2
  | nextKey => 3

def ObjectField.index : ObjectField → Nat
  | classId => 0
  | props => 1

def denseCapacity : Int := 8

def hashBuckets : Int := 16

def denseMaxIndex : Int64 := 2147483646

end HeapScript.Library
