import HeapScript.Analysis.Unroll
import HeapScript.Compile.Expr

/-!
# Statements

The code of statements, by recursion on the tree. `Scope` knows how deep the code is nested, so
that `break` and `continue` find their targets: every loop and switch records the depths of the
two constructs they leave.
-/

namespace HeapScript.Compile

open Machine Library
open Code (load store const32 increment)

/-- The depths of the constructs that `break` and `continue` leave. -/
structure Exits where
  leave : Nat
  next : Nat

structure Scope where
  /-- The number of constructs around it. -/
  depth : Nat := 0
  /-- The loops and switches around it, the innermost first. -/
  loops : List Exits := []

namespace Scope

def inside (s : Scope) (levels : Nat) : Scope := { s with depth := s.depth + levels }

/-- The scope of the body of a loop, inside further constructs. -/
def body (s : Scope) (levels : Nat) (exits : Exits) : Scope :=
  ⟨s.depth + levels, exits :: s.loops⟩

def jump (s : Scope) (depth : Nat) : Code := [.br (s.depth - 1 - depth : Nat)]

end Scope

abbrev Block := Scope → Gen Code

namespace Gen

/-! ## Output -/

def bytesOf (c : Context) (p : Piece) : Gen Code :=
  match p.rep with
  | .int => pure (p.code ++ c.links.call .intToString)
  | .float => pure (p.code ++ [.call c.links.floatToBytes])
  | _ => do return (← asRep c p .boxed) ++ c.links.call .toBytes

def echo (c : Context) (o : Operand) : Gen Code :=
  match if c.optimize then o.expr.constant? else none with
  | some v => do return (← bytes v.toBytes) ++ [.call c.links.echo]
  | none => do return (← bytesOf c (← o.emit (.value .boxed))) ++ [.call c.links.echo]

def echoes (c : Context) : List Operand → Gen Code
  | [] => pure []
  | o :: rest => do return (← echo c o) ++ (← echoes c rest)

/-! ## Loops -/

/-- Leaves a loop, two levels up, unless a condition holds. -/
def leaveUnless (c : Context) : Option Operand → Gen Code
  | none => pure []
  | some cond => do return (← value c cond .bool) ++ [.i32Eqz, .brIf 1]

def loop (c : Context) (cond : Option Operand) (post : List Operand) (body : Block)
    (s : Scope) : Gen Code := do
  let test ← leaveUnless c cond
  let inner ← body (s.body 3 ⟨s.depth, s.depth + 2⟩)
  let step ← effects c post
  return [.block .void, .loop] ++ test ++ [.block .void] ++ inner ++ [.close] ++ step ++
    [.br 0, .close, .close]

def loopUntil (c : Context) (body : Block) (cond : Operand) (s : Scope) : Gen Code := do
  let inner ← body (s.body 3 ⟨s.depth, s.depth + 2⟩)
  let test ← value c cond .bool
  return [.block .void, .loop, .block .void] ++ inner ++ [.close] ++ test ++ [.brIf 0, .close, .close]

def repeated (step : Gen Code) : Nat → Gen Code
  | 0 => pure []
  | n + 1 => do return (← step) ++ (← repeated step n)

/-- A counted loop whose condition, body and step are repeated between two jumps. -/
def unrolled (c : Context) (cond : Option Operand) (post : List Operand) (body : Block)
    (s : Scope) : Gen Code := do
  let copies ← repeated (do
    let test ← leaveUnless c cond
    let inner ← body (s.inside 2)
    return test ++ inner ++ (← effects c post)) c.unroll.toNat
  return [.block .void, .loop] ++ copies ++ [.br 0, .close, .close]

def storageOf (c : Context) (name : String) : Gen Storage := do return (← findVar c name).storage

def counterOf? (c : Context) (init : List Expr) (cond : Option Expr) (post : List Expr)
    (body : List Stmt) : Gen (Option String) := do
  if !c.optimize || c.unroll ≤ 1 || post.length != 1 then return none
  match CountedLoop.ofHeader? init cond with
  | none => return none
  | some l =>
    if (← storageOf c l.counter) ≠ .int then return none
    match l.bound with
    | some b => if (← storageOf c b) ≠ .int then return none
    | none => pure ()
    return if l.fits post body then some l.counter else none

def forLoop (c : Context) (counter : Option String) (cond : Option Operand) (post : List Operand)
    (body : Block) (s : Scope) : Gen Code :=
  match counter with
  | some name => do
    note ("  " ++ c.name ++ ": unrolling loop over $" ++ name ++ " by " ++ toString c.unroll)
    unrolled c cond post body s
  | none => loop c cond post body s

def boundVar (c : Context) (loc : Location) (name : String) : Gen Nat := do
  let v ← findVar c name
  if v.storage ≠ .boxed then
    fail (.broken ("unboxed variable $" ++ name ++ " bound by foreach") loc)
  return v.slot

/-- Reads what a routine finds at a position of an array. -/
def atPosition (c : Context) (subject pos : Nat) (r : Routine) : Code :=
  load subject ++ load pos ++ c.links.call r

/-- Stores the key at a position into the variable for it, if there is one. -/
def bindKey (c : Context) (loc : Location) (subject pos : Nat) : Option String → Gen Code
  | none => pure []
  | some k => do return atPosition c subject pos .arrIterKey ++ store (← boundVar c loc k)

/-- A loop over the elements of an array by position. The number of positions is taken at the
start, and positions without an element are passed over. -/
def foreach (c : Context) (loc : Location) (subject : Operand) (key : Option String)
    (val : String) (body : Block) (s : Scope) : Gen Code := do
  let subj ← temp .boxed
  let len ← temp .bool
  let pos ← temp .bool
  let start ← value c subject .boxed
  let keyCode ← bindKey c loc subj pos key
  let valueVar ← boundVar c loc val
  let inner ← body (s.body 4 ⟨s.depth, s.depth + 3⟩)
  releaseAll [subj, len, pos]
  return start ++ store subj ++ load subj ++ c.links.call .arrIterLen ++ store len ++
    const32 0 ++ store pos ++
    [.block .void, .loop] ++ load pos ++ load len ++ [.i32 .geS, .brIf 1] ++
    atPosition c subj pos .arrIterHas ++ [.branchIf .void] ++ keyCode ++
    atPosition c subj pos .arrIterValue ++ store valueVar ++ [.block .void] ++ inner ++ [.close, .close] ++ increment pos ++ [.br 0, .close, .close]

/-! ## Switch -/

/-- Finds the case to enter: the first that is equal to the subject, else the default, else none.
`next` is the number of the coming case. -/
def findCase (c : Context) (loc : Location) (subject target : Nat) :
    (next : Nat) → (default : Option Nat) → List (Option Operand) → Gen Code
  | next, default, [] => pure (const32 (default.getD next) ++ store target)
  | next, default, none :: rest =>
    match default with
    | some _ => fail (.unsupported "switch with more than one default" loc)
    | none => findCase c loc subject target (next + 1) (some next) rest
  | next, default, some m :: rest => do
    let test ← value c m .boxed
    let others ← findCase c loc subject target (next + 1) default rest
    return load subject ++ test ++ c.links.call .looseEq ++
      Code.when (const32 next ++ store target ++ [.br 1]) ++ others

/-- The bodies of the cases, each of which runs if the case to enter is not after it. -/
def caseBodies (target : Nat) (s : Scope) : (next : Nat) → List Block → Gen Code
  | _, [] => pure []
  | next, body :: rest => do
    let inner ← body s
    let others ← caseBodies target s (next + 1) rest
    return load target ++ const32 next ++ [.i32 .leS] ++ Code.when inner ++ others

def switch (c : Context) (loc : Location) (subject : Operand) (cases : List (Option Operand))
    (bodies : List Block) (s : Scope) : Gen Code := do
  let subj ← temp .boxed
  let target ← temp .bool
  let start ← value c subject .boxed
  let search ← findCase c loc subj target 0 none cases
  let inner ← caseBodies target (s.body 2 ⟨s.depth, s.depth⟩) 0 bodies
  releaseAll [subj, target]
  return start ++ store subj ++ [.block .void] ++ search ++ [.close, .block .void] ++ inner ++ [.close]

/-! ## Jumps -/

/-- The loop or switch that `break` or `continue` with a number of levels is about. -/
def exits (what : String) (loc : Location) (levels : Int) (s : Scope) : Gen Exits :=
  let n := max levels 1
  match s.loops[(n - 1).toNat]?, s.loops with
  | some e, _ => pure e
  | none, [] => fail (.unsupported (what ++ " outside a loop or switch") loc)
  | none, loops =>
    fail (.unsupported (what ++ " " ++ toString n ++ " with only " ++ toString loops.length ++
      " enclosing loop(s)") loc)

def result (c : Context) : Option Operand → Gen Code
  | some o => if c.isMain then effect c o else value c o .boxed
  | none => pure (if c.isMain then [] else c.links.call .newNull)

def ret (c : Context) (val : Option Operand) : Gen Code := do
  return (← result c val) ++ [.ret]

def branch (c : Context) (cond : Operand) (yes : Block) (no : Option Block) (s : Scope) :
    Gen Code := do
  let test ← value c cond .bool
  let yes ← yes (s.inside 1)
  match no with
  | none => return test ++ Code.when yes
  | some no => return test ++ Code.ifElse yes (← no (s.inside 1))

end Gen

open Gen

mutual

def stmt (c : Context) : Stmt → Scope → Gen Code
  | .expr _ e, _ => effect c (operand c e)
  | .echo _ args, _ => echoes c (operands c args)
  | .ifElse _ cond yes no, s =>
    branch c (operand c cond) (fun s => stmts c yes s)
      (if no.isEmpty then none else some fun s => stmts c no s) s
  | .whileDo _ cond body, s => loop c (some (operand c cond)) [] (fun s => stmts c body s) s
  | .doWhile _ body cond, s => loopUntil c (fun s => stmts c body s) (operand c cond) s
  | .forLoop _ init cond post body, s => do
    let start ← effects c (operands c init)
    let counter ← counterOf? c init cond post body
    return start ++ (← forLoop c counter (cond.map (operand c)) (operands c post)
      (fun s => stmts c body s) s)
  | .foreach loc subject key val body, s =>
    foreach c loc (operand c subject) key val (fun s => stmts c body s) s
  | .switch loc subject cases, s =>
    switch c loc (operand c subject) (cases.map fun k => k.1.map (operand c)) (caseBlocks c cases) s
  | .leave loc levels, s => do return s.jump (← exits "break" loc levels s).leave
  | .next loc levels, s => do return s.jump (← exits "continue" loc levels s).next
  | .ret _ val, _ => ret c (val.map (operand c))
  | .function decl, _ => fail (.unsupported ("function declared inside " ++ c.name) decl.loc)
  | .classDecl loc .., _ => fail (.unsupported ("class declared inside " ++ c.name) loc)

def stmts (c : Context) : List Stmt → Scope → Gen Code
  | [], _ => pure []
  | st :: rest, s => do
    let first ← stmt c st s
    return first ++ (← stmts c rest s)

/-- How the bodies of the cases of a switch are generated. -/
def caseBlocks (c : Context) : List (Option Expr × List Stmt) → List Block
  | [] => []
  | (_, body) :: rest => (fun s => stmts c body s) :: caseBlocks c rest

end

end HeapScript.Compile
