import HeapScript.Number.FloatText
import HeapScript.Text.Quoted

/-!
# Dynamic values

A value is a scalar, an array or an object. Arrays and objects have an identity besides their
contents: two of them are the same only when their handles agree. An array with handle 0 has
no contents at all.
-/

namespace HeapScript

inductive Tag where
  | null | bool | int | float | string | array | object
  deriving DecidableEq, Repr

namespace Tag

/-- The number of a tag, as heap records store it. -/
def code : Tag → Int32
  | null => 0
  | bool => 1
  | int => 2
  | float => 3
  | string => 4
  | array => 5
  | object => 6

def ofCode? (n : Int) : Option Tag :=
  match n with
  | 0 => some null
  | 1 => some bool
  | 2 => some int
  | 3 => some float
  | 4 => some string
  | 5 => some array
  | 6 => some object
  | _ => none

def name : Tag → String
  | null => "null"
  | bool => "bool"
  | int => "int"
  | float => "float"
  | string => "string"
  | array => "array"
  | object => "object"

end Tag

inductive Value where
  | null
  | bool (b : Bool)
  | int (i : Int64)
  | float (f : Float)
  | str (s : Bytes)
  | array (handle : Nat) (entries : List (Value × Value))
  | object (handle : Nat) (classId : Int32) (props : List Value)
  deriving Inhabited

namespace Value

def tag : Value → Tag
  | null => .null
  | bool _ => .bool
  | int _ => .int
  | float _ => .float
  | str _ => .string
  | array .. => .array
  | object .. => .object

def ofText (s : String) : Value := str (textBytes s)

mutual

def text : Value → String
  | null => "null"
  | bool b => if b then "true" else "false"
  | int i => toString i.toInt
  | float f => displayFloat f
  | str s => Text.quoteBytes s
  | array _ entries => "[" ++ String.intercalate ", " (entryTexts entries) ++ "]"
  | object _ classId _ => "object(class " ++ toString classId.toInt ++ ")"

def entryTexts : List (Value × Value) → List String
  | [] => []
  | (k, v) :: rest => (k.text ++ " => " ++ v.text) :: entryTexts rest

end

/-! ## Payloads -/

/-- A payload was asked of a value of another kind. -/
structure PayloadError where
  wanted : Tag
  found : Tag

def PayloadError.message (e : PayloadError) : String :=
  "value accessor: " ++ e.wanted.name ++ " payload read from a " ++ e.found.name ++ " value"

def asBool : Value → Except PayloadError Bool
  | bool b => .ok b
  | v => .error ⟨.bool, v.tag⟩

def asInt : Value → Except PayloadError Int64
  | int i => .ok i
  | v => .error ⟨.int, v.tag⟩

def asFloat : Value → Except PayloadError Float
  | float f => .ok f
  | v => .error ⟨.float, v.tag⟩

def asString : Value → Except PayloadError Bytes
  | str s => .ok s
  | v => .error ⟨.string, v.tag⟩

/-- The entries of an Array, if it has any contents. -/
def asArray : Value → Except PayloadError (Option (List (Value × Value)))
  | array handle entries => .ok (if handle = 0 then none else some entries)
  | v => .error ⟨.array, v.tag⟩

def asObject : Value → Except PayloadError Int32
  | object _ classId _ => .ok classId
  | v => .error ⟨.object, v.tag⟩

end Value

end HeapScript
