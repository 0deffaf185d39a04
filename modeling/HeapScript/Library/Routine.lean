import HeapScript.Library.Code
import HeapScript.Value.Operator

/-!
# Library routines

Every compiled module carries a library of routines that work on boxed values: making and
converting them, comparing and combining them, and the operations on arrays and objects.
-/

namespace HeapScript.Library

open Machine

inductive Routine where
  | newNull | newBool | newInt | newFloat | newString
  | strScan | strParseInt | strParseFloat
  | toNumber | toFloat | toInt | toBool | intToString | toBytes
  | bytesEq | concat | isNumeric | looseEq | strictEq
  | order (op : OrderOp)
  | arith (op : ArithOp)
  | negate
  | normalizeKey | illegalOffset | strIsCanonicalInt
  | hashBytes | hashInt | hashKey | keyEq
  | hashNew | hashFind | hashLink | hashGrow | hashInsert | hashLookup
  | arrNew | isHash | arrCount | arrPromote | arrGet | arrGetInt | arrSet | arrSetInt | arrPush
  | arrAutoviv | arrIterLen | arrIterHas | arrIterEntry | arrIterKey | arrIterValue
  | objNew | objClass | objGet | objSet | undefinedProperty
  deriving DecidableEq, Repr

namespace Routine

/-- The routines in the order in which modules hold them. -/
def all : List Routine :=
  [newNull, newBool, newInt, newFloat, newString, strScan, strParseInt, strParseFloat,
    toNumber, toFloat, toInt, toBool, intToString, toBytes, bytesEq, concat, isNumeric, looseEq,
    strictEq, order .lt, order .le, order .gt, order .ge, arith .add, arith .sub, arith .mul,
    arith .div, arith .mod, negate,
    normalizeKey, illegalOffset, strIsCanonicalInt, hashBytes, hashInt, hashKey, keyEq, hashNew,
    hashFind, hashLink, hashGrow, hashInsert, hashLookup,
    arrNew, isHash, arrCount, arrPromote, arrGet, arrGetInt, arrSet, arrSetInt, arrPush,
    arrAutoviv, arrIterLen, arrIterHas, arrIterEntry, arrIterKey, arrIterValue,
    objNew, objClass, objGet, objSet, undefinedProperty]

def position : Routine → Nat
  | newNull => 0
  | newBool => 1
  | newInt => 2
  | newFloat => 3
  | newString => 4
  | strScan => 5
  | strParseInt => 6
  | strParseFloat => 7
  | toNumber => 8
  | toFloat => 9
  | toInt => 10
  | toBool => 11
  | intToString => 12
  | toBytes => 13
  | bytesEq => 14
  | concat => 15
  | isNumeric => 16
  | looseEq => 17
  | strictEq => 18
  | order .lt => 19
  | order .le => 20
  | order .gt => 21
  | order .ge => 22
  | arith .add => 23
  | arith .sub => 24
  | arith .mul => 25
  | arith .div => 26
  | arith .mod => 27
  | negate => 28
  | normalizeKey => 29
  | illegalOffset => 30
  | strIsCanonicalInt => 31
  | hashBytes => 32
  | hashInt => 33
  | hashKey => 34
  | keyEq => 35
  | hashNew => 36
  | hashFind => 37
  | hashLink => 38
  | hashGrow => 39
  | hashInsert => 40
  | hashLookup => 41
  | arrNew => 42
  | isHash => 43
  | arrCount => 44
  | arrPromote => 45
  | arrGet => 46
  | arrGetInt => 47
  | arrSet => 48
  | arrSetInt => 49
  | arrPush => 50
  | arrAutoviv => 51
  | arrIterLen => 52
  | arrIterHas => 53
  | arrIterEntry => 54
  | arrIterKey => 55
  | arrIterValue => 56
  | objNew => 57
  | objClass => 58
  | objGet => 59
  | objSet => 60
  | undefinedProperty => 61

def name : Routine → String
  | newNull => "new_null"
  | newBool => "new_bool"
  | newInt => "new_int"
  | newFloat => "new_float"
  | newString => "new_string"
  | strScan => "str_scan"
  | strParseInt => "str_parse_int"
  | strParseFloat => "str_parse_float"
  | toNumber => "to_number"
  | toFloat => "to_float"
  | toInt => "to_int"
  | toBool => "to_bool"
  | intToString => "int_to_string"
  | toBytes => "to_string"
  | bytesEq => "bytes_eq"
  | concat => "concat"
  | isNumeric => "is_numeric"
  | looseEq => "loose_eq"
  | strictEq => "strict_eq"
  | order .lt => "lt"
  | order .le => "le"
  | order .gt => "gt"
  | order .ge => "ge"
  | arith .add => "add"
  | arith .sub => "sub"
  | arith .mul => "mul"
  | arith .div => "div"
  | arith .mod => "mod"
  | negate => "neg"
  | normalizeKey => "normalize_key"
  | illegalOffset => "illegal_offset"
  | strIsCanonicalInt => "str_is_canonical_int"
  | hashBytes => "hash_bytes"
  | hashInt => "hash_int"
  | hashKey => "hash_key"
  | keyEq => "key_eq"
  | hashNew => "hash_new"
  | hashFind => "hash_find"
  | hashLink => "hash_link"
  | hashGrow => "hash_grow"
  | hashInsert => "hash_insert"
  | hashLookup => "hash_lookup"
  | arrNew => "arr_new"
  | isHash => "is_hash"
  | arrCount => "arr_count"
  | arrPromote => "arr_promote"
  | arrGet => "arr_get"
  | arrGetInt => "arr_get_int"
  | arrSet => "arr_set"
  | arrSetInt => "arr_set_int"
  | arrPush => "arr_push"
  | arrAutoviv => "arr_autoviv"
  | arrIterLen => "arr_iter_len"
  | arrIterHas => "arr_iter_has"
  | arrIterEntry => "arr_iter_entry"
  | arrIterKey => "arr_iter_key"
  | arrIterValue => "arr_iter_value"
  | objNew => "obj_new"
  | objClass => "obj_class"
  | objGet => "obj_get"
  | objSet => "obj_set"
  | undefinedProperty => "undefined_property"

def ofName? (name : String) : Option Routine := all.find? fun r => r.name == name

/-- The message for a name that no routine has. -/
def unknownMessage (name : String) : String := "no runtime function named " ++ Text.quote name

open Shape in
def params : Routine → List ValType
  | newNull | illegalOffset | undefinedProperty | arrNew => []
  | newBool | hashNew => [.i32]
  | newInt | intToString | hashInt => [.i64]
  | newFloat => [.f64]
  | newString | strScan | strParseInt | strParseFloat | strIsCanonicalInt | hashBytes => [bytesRef]
  | toNumber | toFloat | toInt | toBool | toBytes | isNumeric | negate | normalizeKey | hashKey
  | isHash | arrCount | arrPromote | arrAutoviv | arrIterLen | objClass => [valueRef]
  | bytesEq => [bytesRef, bytesRef]
  | concat | looseEq | strictEq | order _ | arith _ | keyEq | arrGet | arrPush =>
    [valueRef, valueRef]
  | hashFind => [hashRef, valueRef, .i32]
  | hashLink => [hashRef, entryRef, .i32]
  | hashGrow => [hashRef]
  | hashInsert => [hashRef, valueRef, valueRef]
  | hashLookup => [hashRef, valueRef]
  | arrGetInt => [valueRef, .i64]
  | arrSet => [valueRef, valueRef, valueRef]
  | arrSetInt => [valueRef, .i64, valueRef]
  | arrIterHas | arrIterEntry | arrIterKey | arrIterValue | objGet => [valueRef, .i32]
  | objNew => [.i32, .i32]
  | objSet => [valueRef, .i32, valueRef]

open Shape in
def results : Routine → List ValType
  | illegalOffset | undefinedProperty | hashLink | hashGrow | hashInsert | objSet => []
  | strScan | toBool | bytesEq | isNumeric | looseEq | strictEq | order _ | strIsCanonicalInt
  | hashBytes | hashInt | hashKey | keyEq | isHash | arrIterLen | arrIterHas | objClass => [.i32]
  | strParseInt | toInt | arrCount => [.i64]
  | strParseFloat | toFloat => [.f64]
  | intToString | toBytes => [bytesRef]
  | hashNew => [hashRef]
  | hashFind | arrIterEntry => [entryRef]
  | newNull | newBool | newInt | newFloat | newString | toNumber | concat | arith _ | negate
  | normalizeKey | hashLookup | arrNew | arrPromote | arrGet | arrGetInt | arrSet | arrSetInt
  | arrPush | arrAutoviv | arrIterKey | arrIterValue | objNew | objGet => [valueRef]

end Routine

/-- Where a module holds the library: two functions of the host, then the routines in order. -/
structure Links where
  base : Nat

namespace Links

def echo (l : Links) : Nat := l.base

def floatToBytes (l : Links) : Nat := l.base + 1

def index (l : Links) (r : Routine) : Nat := l.base + 2 + r.position

def call (l : Links) (r : Routine) : Code := [.call (l.index r)]

end Links

/-- What a routine computes with: its further locals and its code. -/
structure Body where
  locals : List ValType := []
  code : Code

end HeapScript.Library
