import HeapScript.Analysis.StaticType

/-!
# Storage of variables

A variable of a function is held as a machine number for the whole function if it never escapes
through a reference, is assigned before every read and only ever receives numbers of one type.
The same walk finds out whether every read of a variable comes after an assignment, and whether
it only ever holds objects of one class.
-/

namespace HeapScript

inductive Storage where
  | boxed | int | float
  deriving DecidableEq, Repr

namespace Storage

def ofCode (n : Int) : Storage :=
  match n with
  | 1 => int
  | 2 => float
  | _ => boxed

def name : Storage → String
  | boxed => "boxed"
  | int => "unboxed int"
  | float => "unboxed float"

/-- The type of every read of a variable with this storage. -/
def type : Storage → StaticType
  | boxed => .unknown
  | int => .int
  | float => .float

def ofType : StaticType → Storage
  | .unknown => boxed
  | .int => int
  | .float => float

end Storage

structure VarFacts where
  storage : Storage := .boxed
  /-- The class of all objects it ever holds. -/
  className : Option String := none
  /-- Whether every read comes after an assignment. -/
  definite : Bool := false
  deriving DecidableEq, Repr

/-- What is settled about the variables of a function, in the order they are first met. -/
structure FunctionFacts where
  name : String := ""
  vars : List (String × VarFacts) := []

namespace FunctionFacts

/-- What is settled about a variable; an unknown one is boxed. -/
def lookup (f : FunctionFacts) (name : String) : VarFacts := (f.vars.lookup name).getD {}

def typeOf (f : FunctionFacts) (name : String) : StaticType := (f.lookup name).storage.type

end FunctionFacts

/-! ## Uses -/

structure VarUse where
  /-- Whether its value comes from elsewhere, as for parameters. -/
  forced : Bool := false
  escapes : Bool := false
  definite : Bool
  /-- The blocks around the first occurrence, from the outermost in. -/
  firstPath : List Nat
  assigned : List Expr := []
  created : List String := []
  /-- Whether something else than a new object is assigned. -/
  otherAssign : Bool := false

/-- The uses met so far and the number of blocks entered. -/
structure Uses where
  vars : List (String × VarUse) := []
  blocks : Nat := 0

abbrev Walk := StateM Uses

namespace Walk

def update (name : String) (f : VarUse → VarUse) : List (String × VarUse) → List (String × VarUse)
  | [] => []
  | (n, u) :: rest => if n = name then (n, f u) :: rest else (n, u) :: update name f rest

/-- Records an occurrence of a variable inside some blocks. A first occurrence that defines it
makes it definite, as long as all others stand inside the same blocks. -/
def occurrence (path : List Nat) (name : String) (defining : Bool) : Walk Unit :=
  modify fun s =>
    match s.vars.lookup name with
    | none => { s with vars := s.vars ++ [(name, { definite := defining, firstPath := path })] }
    | some u =>
      if u.firstPath.isPrefixOf path then s
      else { s with vars := update name (fun u => { u with definite := false }) s.vars }

def mark (name : String) (f : VarUse → VarUse) : Walk Unit :=
  modify fun s => { s with vars := update name f s.vars }

/-- A variable whose value comes from elsewhere. -/
def forced (path : List Nat) (name : String) (defining : Bool) : Walk Unit := do
  occurrence path name defining
  mark name fun u => { u with forced := true }

/-- The blocks around the contents of a new block. -/
def enter (path : List Nat) : Walk (List Nat) :=
  modifyGet fun s => (path ++ [s.blocks + 1], { s with blocks := s.blocks + 1 })

def assignment (path : List Nat) (loc : Location) (op : Option CompoundOp) (target : Location)
    (name : String) (value : Expr) (defining : Bool) : Walk Unit := do
  match op with
  | some op =>
    occurrence path name false
    occurrence path name defining
    mark name fun u => { u with
      assigned := u.assigned ++ [.binary loc op.binary (.var target name) value],
      otherAssign := true }
  | none =>
    occurrence path name defining
    match value with
    | .create _ c _ =>
      mark name fun u => { u with assigned := u.assigned ++ [value], created := u.created ++ [c] }
    | _ => mark name fun u => { u with assigned := u.assigned ++ [value], otherAssign := true }

def stepped (path : List Nat) (loc : Location) (increment : Bool) (target : Location)
    (name : String) : Walk Unit := do
  occurrence path name false
  let op : ArithOp := if increment then .add else .sub
  mark name fun u => { u with
    assigned := u.assigned ++ [.binary loc (.arith op) (.var target name) (.lit loc (.int 1))],
    otherAssign := true }

/-- Where an expression stands. -/
inductive Role where
  | value
  /-- Its value leaves through a reference. -/
  | escaping
  /-- It is the target of an element or property write. -/
  | written
  deriving DecidableEq

def Role.base : Role → Role
  | written => written
  | _ => escaping

/-- A read of a variable, which lets it escape where a reference is taken. -/
def read (path : List Nat) (name : String) (escaping : Bool) : Walk Unit := do
  occurrence path name false
  if escaping then mark name fun u => { u with escapes := true }

mutual

def expr (path : List Nat) (role : Role) : Expr → Walk Unit
  | .lit .. => pure ()
  | .var _ name => read path name (role != .value)
  | .binary _ _ l r => do
    expr path .value l
    expr path .value r
  | .unary _ _ e => expr path .value e
  | .assign loc op (.var target name) value => do
    expr path .value value
    assignment path loc op target name value false
  | .assign _ _ target value => do
    expr path .escaping value
    expr path .written target
  | .incDec loc increment _ (.var target name) => stepped path loc increment target name
  | .incDec _ _ _ target => expr path .written target
  | .ternary _ c t e => do
    expr path .value c
    expr path .value t
    expr path .value e
  | .array _ items => arrayItems path items
  | .index _ base none => expr path role.base base
  | .index _ base (some key) => do
    expr path role.base base
    expr path .value key
  | .call _ _ args => exprs path .escaping args
  | .method _ object _ args => do
    expr path .escaping object
    exprs path .escaping args
  | .create _ _ args => exprs path .escaping args
  | .prop _ object _ => expr path .escaping object

def exprs (path : List Nat) (role : Role) : List Expr → Walk Unit
  | [] => pure ()
  | e :: rest => do
    expr path role e
    exprs path role rest

/-- Walks over array items, whose values escape. -/
def arrayItems (path : List Nat) : List (Option Expr × Expr) → Walk Unit
  | [] => pure ()
  | (none, v) :: rest => do
    expr path .escaping v
    arrayItems path rest
  | (some k, v) :: rest => do
    expr path .value k
    expr path .escaping v
    arrayItems path rest

end

def option (path : List Nat) (role : Role) : Option Expr → Walk Unit
  | none => pure ()
  | some e => expr path role e

/-- Walks over an expression that is a statement of its own, where a plain assignment defines its
variable. -/
def statementExpr (path : List Nat) : Expr → Walk Unit
  | .assign loc none (.var target name) value => do
    expr path .value value
    assignment path loc none target name value true
  | e => expr path .value e

mutual

def stmt (path : List Nat) : Stmt → Walk Unit
  | .expr _ e => statementExpr path e
  | .echo _ args => exprs path .value args
  | .ifElse _ c t e => do
    expr path .value c
    block path t
    block path e
  | .whileDo _ c body => do
    let path ← enter path
    expr path .value c
    block path body
  | .doWhile _ body c => do
    let path ← enter path
    block path body
    expr path .value c
  | .forLoop _ init c post body => do
    init.forM (statementExpr path)
    let path ← enter path
    option path .value c
    block path body
    exprs path .value post
  | .foreach _ subject key value body => do
    expr path .escaping subject
    let path ← enter path
    key.forM fun k => forced path k false
    forced path value false
    block path body
  | .switch _ subject cases => do
    expr path .value subject
    let path ← enter path
    switchCases path cases
  | .ret _ v => option path .escaping v
  | .leave .. | .next .. | .function .. | .classDecl .. => pure ()

def block (path : List Nat) (body : List Stmt) : Walk Unit := do
  let path ← enter path
  stmts path body

def stmts (path : List Nat) : List Stmt → Walk Unit
  | [] => pure ()
  | s :: rest => do
    stmt path s
    stmts path rest

def switchCases (path : List Nat) : List (Option Expr × List Stmt) → Walk Unit
  | [] => pure ()
  | (m, body) :: rest => do
    option path .value m
    block path body
    switchCases path rest

end

/-- Walks over a function; `this` names the object a method is called on. -/
def function (f : Function) (isMethod : Bool) : Walk Unit := do
  if isMethod then forced [] "this" true
  f.params.forM fun p => forced [] p true
  stmts [] f.body

end Walk

/-! ## Types -/

abbrev VarTypes := List (String × StaticType)

def VarTypes.get (types : VarTypes) (name : String) : StaticType :=
  (types.lookup name).getD .unknown

def VarUse.isCandidate (u : VarUse) : Bool := !u.forced && !u.escapes && u.definite

/-- The types that the first assignments suggest, one variable after the other. -/
def candidateTypes (uses : List (String × VarUse)) : VarTypes :=
  uses.foldl (fun types (name, u) =>
    match u.assigned with
    | e :: _ =>
      let t := e.staticType types.get
      if u.isCandidate && t.isNumeric then types ++ [(name, t)] else types
    | [] => types) []

def agrees (uses : List (String × VarUse)) (types : VarTypes) (name : String) (t : StaticType) :
    Bool :=
  match uses.lookup name with
  | some u => u.assigned.all fun e => e.staticType types.get == t
  | none => true

/-- Gives up the types that some assignment contradicts, one variable after the other. -/
def demote (uses : List (String × VarUse)) (types : VarTypes) : VarTypes :=
  types.foldl (fun now (name, t) =>
    if t != .unknown && !agrees uses now name t then
      now.map fun e => if e.1 = name then (name, .unknown) else e
    else now) types

/-- Gives up types until none is contradicted. -/
def settle (uses : List (String × VarUse)) : (fuel : Nat) → VarTypes → VarTypes
  | 0, types => types
  | fuel + 1, types =>
    let next := demote uses types
    if next = types then types else settle uses fuel next

def numericTypes (uses : List (String × VarUse)) : VarTypes :=
  let types := candidateTypes uses
  settle uses (types.length + 1) types

/-! ## Facts -/

def VarUse.className? (u : VarUse) : Option String :=
  if u.definite && !u.forced && !u.otherAssign then
    match u.created with
    | c :: rest => if c ≠ "" ∧ rest.all (· == c) then some c else none
    | [] => none
  else none

def VarUse.facts (u : VarUse) (optimize : Bool) (type : StaticType) : VarFacts where
  storage := if optimize then .ofType type else .boxed
  className := if optimize then u.className? else none
  definite := (u.forced || optimize) && u.definite

/-- What is settled about the variables of a function; `this` is the class of a method. -/
def Function.facts (f : Function) (this : Option String) (optimize : Bool) : FunctionFacts :=
  let uses := ((Walk.function f this.isSome).run {}).2.vars
  let types := numericTypes uses
  { name := f.name
    vars := uses.map fun (name, u) =>
      let facts := u.facts optimize (types.get name)
      (name, if this.isSome ∧ name = "this" then { facts with className := this } else facts) }

/-- What is settled about the functions and methods of a program in order, the statements that
run last. -/
def Program.facts (p : Program) (optimize : Bool) : List FunctionFacts :=
  (p.flatMap fun
    | .function f => [Function.facts f none optimize]
    | .classDecl _ name _ methods =>
      methods.map fun f => Function.facts f (if name = "" then none else some name) optimize
    | _ => []) ++ [Function.facts p.main none optimize]

end HeapScript
