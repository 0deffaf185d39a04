import HeapScript.Value.Coerce

/-!
# Operators on values

The binary and unary operators of the language and their meaning on values. Arithmetic is
exact on 64-bit integers up to wrap-around and uses floats as soon as one operand is not an
integer; ordering always compares floats.
-/

namespace HeapScript

/-! ## Spelling -/

inductive ArithOp where
  | add | sub | mul | div | mod
  deriving DecidableEq, Repr

namespace ArithOp

def symbol : ArithOp → String
  | add => "+"
  | sub => "-"
  | mul => "*"
  | div => "/"
  | mod => "%"

def all : List ArithOp := [add, sub, mul, div, mod]

def ofSymbol? (s : String) : Option ArithOp := all.find? fun op => op.symbol == s

end ArithOp

inductive OrderOp where
  | lt | le | gt | ge
  deriving DecidableEq, Repr

namespace OrderOp

def symbol : OrderOp → String
  | lt => "<"
  | le => "<="
  | gt => ">"
  | ge => ">="

def all : List OrderOp := [lt, le, gt, ge]

def ofSymbol? (s : String) : Option OrderOp := all.find? fun op => op.symbol == s

end OrderOp

inductive BinaryOp where
  | arith (op : ArithOp)
  | concat
  | eq | ne | identical | notIdentical
  | order (op : OrderOp)
  | and | or
  deriving DecidableEq, Repr

namespace BinaryOp

def symbol : BinaryOp → String
  | arith op => op.symbol
  | concat => "."
  | eq => "=="
  | ne => "!="
  | identical => "==="
  | notIdentical => "!=="
  | order op => op.symbol
  | and => "&&"
  | or => "||"

def all : List BinaryOp :=
  ArithOp.all.map arith ++ [concat, eq, ne, identical, notIdentical] ++
    OrderOp.all.map order ++ [and, or]

def ofSymbol? (s : String) : Option BinaryOp := all.find? fun op => op.symbol == s

end BinaryOp

inductive UnaryOp where
  | minus | plus | not
  deriving DecidableEq, Repr

namespace UnaryOp

def symbol : UnaryOp → String
  | minus => "-"
  | plus => "+"
  | not => "!"

def all : List UnaryOp := [minus, plus, not]

end UnaryOp

/-- The operators that can be combined with an assignment. -/
inductive CompoundOp where
  | arith (op : ArithOp)
  | concat
  deriving DecidableEq, Repr

namespace CompoundOp

def binary : CompoundOp → BinaryOp
  | arith op => .arith op
  | concat => .concat

def symbol (op : CompoundOp) : String := op.binary.symbol

def all : List CompoundOp := ArithOp.all.map arith ++ [concat]

end CompoundOp

/-! ## Meaning -/

namespace Value

def looseEq (a b : Value) : Bool :=
  match a, b with
  | null, null => true
  | bool x, bool y => x == y
  | int x, int y => x == y
  | float x, float y => x == y
  | str x, str y => if a.isNumeric && b.isNumeric then a.toFloat == b.toFloat else x == y
  | array x _, array y _ => x == y
  | object x _ _, object y _ _ => x == y
  | bool _, _ | _, bool _ | null, _ | _, null => a.toBool == b.toBool
  | _, _ => a.isNumeric && b.isNumeric && a.toFloat == b.toFloat

def strictEq (a b : Value) : Bool :=
  match a, b with
  | null, null => true
  | bool x, bool y => x == y
  | int x, int y => x == y
  | float x, float y => x == y
  | str x, str y => x == y
  | array x _, array y _ => x == y
  | object x _ _, object y _ _ => x == y
  | _, _ => false

def compare (op : OrderOp) (a b : Value) : Bool :=
  let x := a.toFloat
  let y := b.toFloat
  match op with
  | .lt => x < y
  | .le => x ≤ y
  | .gt => x > y
  | .ge => x ≥ y

/-- Why an operator has no result. -/
inductive OperatorError where
  | divisionByZero
  | notOrdering (symbol : String)
  | notArithmetic (symbol : String)

def OperatorError.message : OperatorError → String
  | divisionByZero => "division by zero"
  | notOrdering s => "not an ordering operator: " ++ s
  | notArithmetic s => "not an arithmetic operator: " ++ s

/-- Applies an integer operation to two integers and a float operation to any other pair of
numbers. -/
def numeric (onInt : Int64 → Int64 → Int64) (onFloat : Float → Float → Float)
    (a b : Value) : Value :=
  match a.toNumber, b.toNumber with
  | int x, int y => int (onInt x y)
  | x, y => float (onFloat x.toFloat y.toFloat)

/-- The remainder of a division toward zero by a divisor that is not 0. -/
def remainder (x y : Int64) : Int64 := if y = -1 then 0 else x % y

def arith (op : ArithOp) (a b : Value) : Except OperatorError Value :=
  match op with
  | .add => .ok (numeric (· + ·) (· + ·) a b)
  | .sub => .ok (numeric (· - ·) (· - ·) a b)
  | .mul => .ok (numeric (· * ·) (· * ·) a b)
  | .div =>
    let y := b.toFloat
    if y == 0 then .error .divisionByZero else .ok (float (a.toFloat / y))
  | .mod =>
    let y := b.toInt
    if y = 0 then .error .divisionByZero else .ok (int (remainder a.toInt y))

def negate (v : Value) : Value :=
  match v.toNumber with
  | float f => float (-f)
  | int i => int (0 - i)
  | w => w

def concat (a b : Value) : Value := str (a.toBytes ++ b.toBytes)

def compareBy (symbol : String) (a b : Value) : Except OperatorError Bool :=
  match OrderOp.ofSymbol? symbol with
  | some op => .ok (compare op a b)
  | none => .error (.notOrdering symbol)

def arithBy (symbol : String) (a b : Value) : Except OperatorError Value :=
  match ArithOp.ofSymbol? symbol with
  | some op => arith op a b
  | none => .error (.notArithmetic symbol)

end Value

end HeapScript
