import HeapScript.Compile.Stmt

/-!
# Functions

The functions of a module: those of the program, the constructors of its classes and the helpers
that were used on the way.
-/

namespace HeapScript.Compile

open Machine Library
open Code (load store const32 localIs)

structure Body where
  name : String
  index : Nat
  params : List ValType
  results : List ValType
  locals : List ValType := []
  code : Code
  loc : Location := {}

/-- What is said about a function that is complete. -/
def Body.note (b : Body) : String :=
  "  func " ++ toString b.index ++ " " ++ b.name ++ ": " ++ toString b.params.length ++
    " params, " ++ toString b.locals.length ++ " locals, " ++ toString b.code.length ++
    " instructions"

def boxedParams (n : Nat) : List ValType := List.replicate n Shape.valueRef

def Draft.start (pool : Pool) (notes : Array String) (params : Nat) : Draft where
  layout := { refType := Shape.valueRef, params := boxedParams params }
  pool := pool
  notes := notes

namespace Gen

/-! ## Functions of the program -/

/-- Makes the parameters variables, from the given local on. -/
def bindParams (c : Context) (f : FunctionInfo) : (slot : Nat) → List String → Gen Unit
  | _, [] => pure ()
  | slot, name :: rest => do
    let s ← get
    if (s.vars.lookup name).isSome then
      fail (.unsupported ("parameter $" ++ name ++ " repeated in " ++ f.name) f.decl.loc)
    set { s with
      vars := (name, ⟨slot, .boxed, (c.facts.lookup name).className, true⟩) :: s.vars }
    bindParams c f (slot + 1) rest

/-- The function of a declaration; a function that falls off its end returns null. -/
def function (c : Context) (f : FunctionInfo) (names : List String) : Gen Body := do
  bindParams c f 0 names
  let code ← stmts c f.decl.body {}
  return {
    name := f.name, index := f.index, params := boxedParams names.length,
    results := if c.isMain then [] else [Shape.valueRef],
    locals := (← get).layout.locals.toList,
    code := code ++ (if c.isMain then [] else c.links.call .newNull),
    loc := f.decl.loc }

/-! ## Constructors -/

/-- The default of a property, null unless it has one. -/
def defaultOf (c : Context) : Option Expr → Gen Code
  | some e => value c (operand c e) .boxed
  | none => pure (c.links.call .newNull)

/-- Stores the defaults of the properties into the object in a local. -/
def defaults (c : Context) (k : ClassInfo) (object : Nat) : List PropertyDecl → Gen Code
  | [] => pure []
  | p :: rest => do
    let val ← defaultOf c p.default
    return load object ++ const32 ((k.slot? p.name).getD 0) ++ val ++ c.links.call .objSet ++
      (← defaults c k object rest)

/-- The function that makes an object: it stores the defaults and runs the initializer. -/
def creator (c : Context) (k : ClassInfo) : Gen Body := do
  let s ← get
  let (object, layout) := s.layout.declare Shape.valueRef
  set { s with layout := layout }
  let fill ← defaults c k object k.defaults
  let run : Code := match k.initializer? with
    | some m => load object ++ (List.range k.arity).flatMap load ++ [.call m.index, .drop]
    | none => []
  return {
    name := c.name, index := k.create, params := boxedParams k.arity,
    results := [Shape.valueRef],
    locals := (← get).layout.locals.toList,
    code := const32 k.id ++ const32 k.props.length ++ c.links.call .objNew ++ store object ++ fill ++
      run ++ load object,
    loc := k.loc }

end Gen

/-! ## Helpers -/

def dispatcherKey (method : String) (args : Nat) : String := method ++ "/" ++ toString args

/-- Calls a method of the class whose number is in a local, for one class after the other. -/
def dispatchCases (params classId : Nat) (args : Nat) : List (ClassInfo × FunctionInfo) → Code
  | [] => []
  | (k, m) :: rest =>
    (if m.arity = args then
      localIs classId k.id ++
        Code.when ((List.range params).flatMap load ++ [.call m.index, .ret])
    else []) ++ dispatchCases params classId args rest

def Helper.body (decls : Declarations) (links : Links) (index : Nat) : Helper → Body
  | .dispatcher method args =>
    let params := args + 1
    { name := "dispatch." ++ dispatcherKey method args, index := index
      params := boxedParams params, results := [Shape.valueRef], locals := [.i32]
      code := load 0 ++ links.call .objClass ++ store params ++
        dispatchCases params params args (decls.withMethod method) ++ [.unreachable] }
  | .slotFinder prop =>
    { name := "slot." ++ prop, index := index, params := [.i32], results := [.i32]
      code := (decls.withProperty prop).flatMap (fun k =>
        localIs 0 k.id ++ Code.when (const32 ((k.slot? prop).getD 0) ++ [.ret])) ++ const32 (-1) }

def Helper.notes (b : Body) : Helper → List String
  | .dispatcher method args => ["dispatcher " ++ dispatcherKey method args, b.note]
  | .slotFinder _ => [b.note]

end HeapScript.Compile
