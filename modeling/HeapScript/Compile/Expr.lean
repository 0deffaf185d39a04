import HeapScript.Compile.Calls

/-!
# Expressions

The code of expressions, by recursion on the tree. Every construct is generated by its own
function from the operands.
-/

namespace HeapScript.Compile

open Gen
open Library (Code)

mutual

def emit (c : Context) : Expr → Demand → Gen Piece
  | .lit _ v, d => literal c v d.best
  | .var _ name, _ => readVar c name
  | .binary loc op l r, d => binary c loc op ⟨l, fun d => emit c l d⟩ ⟨r, fun d => emit c r d⟩ d.best
  | .unary loc op e, d => unary c loc op ⟨e, fun d => emit c e d⟩ d.best
  | .assign loc op target right, d =>
    let right : Operand := ⟨right, fun d => emit c right d⟩
    match target with
    | .var tloc name => assignVar c loc op tloc name right (d != .effect)
    | .index .. | .prop .. => do
      checkSubscripts target
      let (p, code) ← place c target target
      let rest ← storePlace c target.loc op p right (d != .effect)
      return ⟨code ++ rest.code, rest.rep⟩
    | _ => fail (.notAssignable target.text loc)
  | .incDec loc increment before target, d =>
    match target with
    | .var _ name => stepVar c loc name increment before (d != .effect)
    | .index .. | .prop .. => do
      checkSubscripts target
      let (p, code) ← place c target target
      let rest ← stepPlace c target.loc p increment before (d != .effect)
      return ⟨code ++ rest.code, rest.rep⟩
    | _ => fail (.notAssignable target.text loc)
  | .ternary _ cond yes no, d =>
    ternary c ⟨cond, fun d => emit c cond d⟩ ⟨yes, fun d => emit c yes d⟩
      ⟨no, fun d => emit c no d⟩ d.best
  | .array _ entries, _ => array c (entryOperands c entries)
  | .index loc _ none, _ => fail (.unsupported "[] used for reading" loc)
  | .index _ base (some key), _ => element c ⟨base, fun d => emit c base d⟩ ⟨key, fun d => emit c key d⟩
  | .call loc name args, _ => call c loc name (operands c args)
  | .method loc object name args, _ =>
    methodCall c loc ⟨object, fun d => emit c object d⟩ name (operands c args)
  | .create loc name args, _ => create c loc name (operands c args)
  | .prop loc object name, _ => property c loc ⟨object, fun d => emit c object d⟩ name

def operands (c : Context) : List Expr → List Operand
  | [] => []
  | e :: rest => ⟨e, fun d => emit c e d⟩ :: operands c rest

/-- The entries of an array literal with how their code is generated. -/
def entryOperands (c : Context) : List (Option Expr × Expr) → List (Option Operand × Operand)
  | [] => []
  | (none, v) :: rest => (none, ⟨v, fun d => emit c v d⟩) :: entryOperands c rest
  | (some k, v) :: rest =>
    (some ⟨k, fun d => emit c k d⟩, ⟨v, fun d => emit c v d⟩) :: entryOperands c rest

/-- Evaluates the parts of the place that an expression names. `whole` is the target of the
write, for messages. -/
def place (c : Context) (whole : Expr) : Expr → Gen (Place × Code)
  | .index _ base key => do
    let (p, code) ← place c whole base
    match key with
    | none => return ({ p with keys := p.keys ++ [.append] }, code)
    | some k => do
      let (key, evaluated) ← keyOf c ⟨k, fun d => emit c k d⟩
      return ({ p with keys := p.keys ++ [key] }, code ++ evaluated)
  | .var _ name => do
    if (← findVar c name).storage ≠ .boxed then
      fail (.broken ("unboxed variable $" ++ name ++ " used as an array") whole.loc)
    return (⟨.var name, []⟩, [])
  | .prop loc object name => do
    let (ref, code) ← propRef c loc ⟨object, fun d => emit c object d⟩ name
    return (⟨.prop ref, []⟩, code)
  | _ => fail (.notAssignable whole.text whole.loc)

end

def operand (c : Context) (e : Expr) : Operand := ⟨e, emit c e⟩

end HeapScript.Compile
