import HeapScript.Tree.Basic

/-!
# Static types

What is known about the tag of an expression without running it: that it is always an Int, that
it is always a Float, or nothing. `Expr.staticType` looks only at the expression and at what is
known about its variables.
-/

namespace HeapScript

/-- What is known about the tag of an expression. -/
inductive StaticType where
  | unknown | int | float
  deriving DecidableEq, Repr

namespace StaticType

def ofCode (n : Int) : StaticType :=
  match n with
  | 1 => int
  | 2 => float
  | _ => unknown

def name : StaticType → String
  | unknown => "unknown"
  | int => "int"
  | float => "float"

def isNumeric : StaticType → Bool
  | unknown => false
  | _ => true

def combine : StaticType → StaticType → StaticType
  | int, int => int
  | int, float => float
  | float, int => float
  | float, float => float
  | _, _ => unknown

def ofBinary (op : BinaryOp) (l r : StaticType) : StaticType :=
  match op with
  | .arith .add | .arith .sub | .arith .mul => combine l r
  | .arith .div => if l.isNumeric && r.isNumeric then float else unknown
  | .arith .mod => if l = int ∧ r = int then int else unknown
  | _ => unknown

def ofValue : Value → StaticType
  | .int _ => int
  | .float _ => float
  | _ => unknown

/-- The type of a call of a built-in function whose result tag never varies. -/
def ofCall (name : String) : StaticType :=
  match name with
  | "count" | "strlen" | "intval" => int
  | "floatval" => float
  | _ => unknown

end StaticType

/-- What is known about the tag of an expression, given that of its variables. -/
def Expr.staticType (vars : String → StaticType) : Expr → StaticType
  | lit _ v => .ofValue v
  | var _ name => vars name
  | binary _ op l r => .ofBinary op (l.staticType vars) (r.staticType vars)
  | unary _ op e =>
    match op with
    | .minus | .plus => e.staticType vars
    | .not => .unknown
  | incDec _ _ _ (var _ name) => vars name
  | call _ name [_] => .ofCall name
  | _ => .unknown

end HeapScript
