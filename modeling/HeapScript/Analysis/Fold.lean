import HeapScript.Analysis.StaticType

/-!
# Constant folding and algebraic simplification

Folding evaluates an operator whose operands are all literals with the value model. A division
or remainder by zero is not folded, so that the program stops there when it runs. Simplification
replaces an operation on numbers by one operand, by zero or by a doubling.
-/

namespace HeapScript

def BinaryOp.fold (op : BinaryOp) (l r : Value) : Option Value :=
  match op with
  | arith op => (Value.arith op l r).toOption
  | order op => some (.bool (Value.compare op l r))
  | eq => some (.bool (l.looseEq r))
  | ne => some (.bool !(l.looseEq r))
  | identical => some (.bool (l.strictEq r))
  | notIdentical => some (.bool !(l.strictEq r))
  | concat => some (l.concat r)
  | and => some (.bool (l.toBool && r.toBool))
  | or => some (.bool (l.toBool || r.toBool))

def UnaryOp.fold (op : UnaryOp) (v : Value) : Value :=
  match op with
  | minus => v.negate
  | plus => v.toNumber
  | not => .bool !v.toBool

namespace Expr

def constant? : Expr → Option Value
  | lit _ v => some v
  | unary _ op e => e.constant?.map op.fold
  | binary _ op l r =>
    match l.constant?, r.constant? with
    | some a, some b => op.fold a b
    | _, _ => none
  | _ => none

/-- Whether evaluating an expression twice is the same as evaluating it once. -/
def isPure : Expr → Bool
  | var .. | lit .. => true
  | _ => false

def isConstant (e : Expr) (wanted : Float) : Bool :=
  match e.constant? with
  | some (.int i) => Int64.nearestFloat i == wanted
  | some (.float f) => f == wanted
  | _ => false

end Expr

inductive Simplification where
  | left
  | right
  | zero
  | doubleLeft
  | doubleRight
  deriving DecidableEq, Repr

/-- The simplification of a product. A product with zero is only zero for integers, and a
doubled operand is evaluated twice. -/
def simplifyProduct (lt rt : StaticType) (l r : Expr) : Option Simplification :=
  if lt.isNumeric ∧ rt = lt ∧ r.isConstant 1 then some .left
  else if rt.isNumeric ∧ l.isConstant 1 ∧ lt = rt then some .right
  else if lt = .int ∧ rt = .int ∧ r.isConstant 0 ∧ l.isPure then some .zero
  else if lt = .int ∧ rt = .int ∧ l.isConstant 0 ∧ r.isPure then some .zero
  else if lt.isNumeric ∧ rt = .int ∧ r.isConstant 2 ∧ l.isPure then some .doubleLeft
  else if rt.isNumeric ∧ lt = .int ∧ l.isConstant 2 ∧ r.isPure then some .doubleRight
  else none

/-- The identity that applies to an operation on operands whose types are known. -/
def simplify? (vars : String → StaticType) (op : BinaryOp) (l r : Expr) : Option Simplification :=
  let lt := l.staticType vars
  let rt := r.staticType vars
  match op with
  | .arith .mul => simplifyProduct lt rt l r
  | .arith .add =>
    if lt = .int ∧ rt = .int ∧ r.isConstant 0 then some .left
    else if lt = .int ∧ rt = .int ∧ l.isConstant 0 then some .right
    else none
  | .arith .sub => if lt.isNumeric ∧ rt = lt ∧ r.isConstant 0 then some .left else none
  | .arith .div => if lt = .float ∧ rt = .float ∧ r.isConstant 1 then some .left else none
  | _ => none

/-- The expression that takes the place of a simplified operation. -/
def Simplification.expr (loc : Location) (l r : Expr) : Simplification → Expr
  | left => l
  | right => r
  | zero => .lit loc (.int 0)
  | doubleLeft => .binary loc (.arith .add) l l
  | doubleRight => .binary loc (.arith .add) r r

end HeapScript
