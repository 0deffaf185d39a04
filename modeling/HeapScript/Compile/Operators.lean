import HeapScript.Analysis.Fold
import HeapScript.Compile.Draft
import HeapScript.Library.Values
import HeapScript.Tree.Text

/-!
# Literals, variables and operators

The code of literals, variable reads and operators, given how their operands are generated.
Operators on operands whose types are known become single instructions; all others call the
library.
-/

namespace HeapScript.Compile

open Machine Library
open Code (load store keep const32 const64 constF choose)

/-- What is asked of an expression: its value, best in some representation, or its effects. -/
inductive Demand where
  | value (best : Rep)
  | effect
  deriving DecidableEq

def Demand.best : Demand → Rep
  | value r => r
  | effect => .void

/-- An expression together with how its code is generated. -/
structure Operand where
  expr : Expr
  emit : Demand → Gen Piece

namespace Gen

def value (c : Context) (o : Operand) (want : Rep) : Gen Code := do
  asRep c (← o.emit (.value want)) want

def effect (c : Context) (o : Operand) : Gen Code := do
  asRep c (← o.emit .effect) .void

def effects (c : Context) : List Operand → Gen Code
  | [] => pure []
  | o :: rest => do return (← effect c o) ++ (← effects c rest)

def boxedValues (c : Context) : List Operand → Gen Code
  | [] => pure []
  | o :: rest => do return (← value c o .boxed) ++ (← boxedValues c rest)

def both (c : Context) (l r : Operand) (want : Rep) : Gen Code := do
  return (← value c l want) ++ (← value c r want)

/-! ## Literals and variables -/

/-- A constant, boxed in place if that is wanted. -/
def literal (c : Context) (v : Value) (best : Rep) : Gen Piece :=
  match best, v with
  | .void, _ => pure ⟨[], .void⟩
  | .boxed, .int i => pure ⟨Code.newValue .int (const64 i) (constF 0) Code.noBytes Code.noRef, .boxed⟩
  | .float, .int i => pure ⟨constF (Int64.nearestFloat i), .float⟩
  | _, .int i => pure ⟨const64 i, .int⟩
  | .boxed, .float f =>
    pure ⟨Code.newValue .float (const64 0) (constF f) Code.noBytes Code.noRef, .boxed⟩
  | _, .float f => pure ⟨constF f, .float⟩
  | .boxed, .bool b =>
    pure ⟨Code.newValue .bool (const64 (if b then 1 else 0)) (constF 0) Code.noBytes Code.noRef,
      .boxed⟩
  | _, .bool b => pure ⟨const32 (if b then 1 else 0), .bool⟩
  | _, .str s => do return ⟨(← bytes s) ++ c.links.call .newString, .boxed⟩
  | _, _ => pure ⟨c.links.call .newNull, .boxed⟩

/-- A read of a variable. One that may not have been assigned yet reads as null. -/
def readVar (c : Context) (name : String) : Gen Piece := do
  let v ← findVar c name
  if v.storage ≠ .boxed ∨ v.definite then return ⟨load v.slot, v.rep⟩
  return ⟨load v.slot ++ [.refIsNull] ++
    choose Shape.valueRef (c.links.call .newNull) (load v.slot), .boxed⟩

/-! ## Binary operators -/

def byRoutine (c : Context) (r : Routine) (result : Rep) (l r' : Operand) : Gen Piece := do
  return ⟨(← both c l r' .boxed) ++ c.links.call r, result⟩

def arithInstr : ArithOp → I64Op × F64Op
  | .add => (.add, .add)
  | .sub => (.sub, .sub)
  | .mul => (.mul, .mul)
  | .div => (.divS, .div)
  | .mod => (.remS, .div)

def numeric (c : Context) (op : ArithOp) (l r : Operand) : Gen Piece := do
  let lt ← typeFor c l.expr
  let rt ← typeFor c r.expr
  if lt = .int ∧ rt = .int then
    return ⟨(← both c l r .int) ++ [.i64 (arithInstr op).1], .int⟩
  else if lt.isNumeric ∧ rt.isNumeric then
    return ⟨(← both c l r .float) ++ [.f64 (arithInstr op).2], .float⟩
  else byRoutine c (.arith op) .boxed l r

/-- Divides by the operand on top, which must not be zero. -/
def guarded (rep : Rep) (test : Code) (divide : Instr) : Gen Code := do
  let t ← temp rep
  release t
  return keep t ++ test ++ Code.when [.unreachable] ++ load t ++ [divide]

def quotient (c : Context) (l r : Operand) : Gen Piece := do
  let lt ← typeFor c l.expr
  let rt ← typeFor c r.expr
  if lt.isNumeric ∧ rt.isNumeric then
    let operands ← both c l r .float
    return ⟨operands ++ (← guarded .float (constF 0 ++ [.f64Rel .eq]) (.f64 .div)), .float⟩
  else byRoutine c (.arith .div) .boxed l r

def remainder (c : Context) (l r : Operand) : Gen Piece := do
  let lt ← typeFor c l.expr
  let rt ← typeFor c r.expr
  if lt = .int ∧ rt = .int then
    let operands ← both c l r .int
    return ⟨operands ++ (← guarded .int [.i64Eqz] (.i64 .remS)), .int⟩
  else byRoutine c (.arith .mod) .boxed l r

/-- An order comparison, always one of floats. -/
def comparison (c : Context) (op : OrderOp) (l r : Operand) : Gen Piece := do
  let lt ← typeFor c l.expr
  let rt ← typeFor c r.expr
  if lt.isNumeric ∧ rt.isNumeric then
    return ⟨(← both c l r .float) ++ [.f64Rel (orderInstr op)], .bool⟩
  else byRoutine c (.order op) .bool l r

/-- Negates the truth value on top if that is asked. -/
def negatedIf (negated : Bool) : Code := if negated then [.i32Eqz] else []

def looseEquality (c : Context) (negated : Bool) (l r : Operand) : Gen Piece := do
  let lt ← typeFor c l.expr
  let rt ← typeFor c r.expr
  if lt = .int ∧ rt = .int then
    return ⟨(← both c l r .int) ++ [.i64Rel (if negated then .ne else .eq)], .bool⟩
  else if lt.isNumeric ∧ rt.isNumeric then
    return ⟨(← both c l r .float) ++ [.f64Rel (if negated then .ne else .eq)], .bool⟩
  else
    return ⟨(← both c l r .boxed) ++ c.links.call .looseEq ++ negatedIf negated, .bool⟩

/-- Identity. An integer is never identical to a float. -/
def identity (c : Context) (l r : Operand) : Gen Code := do
  let lt ← typeFor c l.expr
  let rt ← typeFor c r.expr
  if lt = .int ∧ rt = .int then return (← both c l r .int) ++ [.i64Rel .eq]
  else if lt = .float ∧ rt = .float then return (← both c l r .float) ++ [.f64Rel .eq]
  else if lt.isNumeric ∧ rt.isNumeric then return (← both c l r .void) ++ const32 0
  else return (← both c l r .boxed) ++ c.links.call .strictEq

def strictEquality (c : Context) (negated : Bool) (l r : Operand) : Gen Piece := do
  return ⟨(← identity c l r) ++ negatedIf negated, .bool⟩

/-- A conjunction, whose right side runs only if the left one holds. -/
def conjunction (c : Context) (l r : Operand) : Gen Piece := do
  let left ← value c l .bool
  let right ← value c r .bool
  return ⟨left ++ choose .i32 right (const32 0), .bool⟩

/-- A disjunction, whose right side runs only if the left one does not hold. -/
def disjunction (c : Context) (l r : Operand) : Gen Piece := do
  let left ← value c l .bool
  let right ← value c r .bool
  return ⟨left ++ choose .i32 (const32 1) right, .bool⟩

def combined (c : Context) (op : BinaryOp) (l r : Operand) : Gen Piece :=
  match op with
  | .arith .div => quotient c l r
  | .arith .mod => remainder c l r
  | .arith op => numeric c op l r
  | .concat => byRoutine c .concat .boxed l r
  | .order op => comparison c op l r
  | .eq => looseEquality c false l r
  | .ne => looseEquality c true l r
  | .identical => strictEquality c false l r
  | .notIdentical => strictEquality c true l r
  | .and => conjunction c l r
  | .or => disjunction c l r

def simplified (c : Context) (how : Simplification) (l r : Operand) (best : Rep) : Gen Piece :=
  match how with
  | .left => l.emit (.value best)
  | .right => r.emit (.value best)
  | .zero => literal c (.int 0) best
  | .doubleLeft => numeric c .add l l
  | .doubleRight => numeric c .add r r

/-- A binary operator, folded or simplified if that is possible. -/
def binary (c : Context) (loc : Location) (op : BinaryOp) (l r : Operand) (best : Rep) :
    Gen Piece := do
  let whole := Expr.binary loc op l.expr r.expr
  if c.optimize then
    match whole.constant? with
    | some v =>
      note ("  folded " ++ whole.text ++ " to " ++ v.text)
      literal c v best
    | none =>
      match simplify? (typeOf c (← get)) op l.expr r.expr with
      | some how =>
        note ("  simplified " ++ whole.text ++ " to " ++ (how.expr loc l.expr r.expr).text)
        simplified c how l r best
      | none => combined c op l r
  else combined c op l r

/-! ## Unary operators -/

def applied (c : Context) (op : UnaryOp) (o : Operand) : Gen Piece := do
  let t ← typeFor c o.expr
  match op, t with
  | .not, _ => return ⟨(← value c o .bool) ++ [.i32Eqz], .bool⟩
  | .minus, .int => return ⟨const64 0 ++ (← value c o .int) ++ [.i64 .sub], .int⟩
  | .minus, .float => return ⟨(← value c o .float) ++ [.f64Neg], .float⟩
  | .minus, .unknown => return ⟨(← value c o .boxed) ++ c.links.call .negate, .boxed⟩
  | .plus, .unknown => return ⟨(← value c o .boxed) ++ c.links.call .toNumber, .boxed⟩
  | .plus, t => return ⟨← value c o (.ofType t), .ofType t⟩

def unary (c : Context) (loc : Location) (op : UnaryOp) (o : Operand) (best : Rep) : Gen Piece :=
  match if c.optimize then (Expr.unary loc op o.expr).constant? else none with
  | some v => literal c v best
  | none => applied c op o

/-- A choice between two expressions, in the representation that is asked for. -/
def ternary (c : Context) (cond yes no : Operand) (best : Rep) : Gen Piece := do
  let test ← value c cond .bool
  if best = .void then
    let yes ← effect c yes
    let no ← effect c no
    return ⟨test ++ Code.ifElse yes no, .void⟩
  else
    let yes ← value c yes best
    let no ← value c no best
    return ⟨test ++ choose best.valType yes no, best⟩

end Gen

end HeapScript.Compile
