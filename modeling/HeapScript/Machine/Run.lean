import HeapScript.Machine.Step

/-!
# Running a module

A module is linked with the functions its host supplies and then runs calls one after another
on one world. A run is bounded by a number of steps, so that it is a total function; the bound
that `Processor.call` uses is derived from the instruction budget, which it never cuts short.
-/

namespace HeapScript.Machine

inductive LinkError where
  | incomplete (e : ValidateError)
  | unresolved (key : String)
  | unbalanced (index : Nat) (name : String) (e : BlockError)

def LinkError.message : LinkError → String
  | incomplete e => e.message
  | unresolved key => "unresolved import " ++ key
  | unbalanced i name e => "function " ++ toString i ++ " (" ++ name ++ "): " ++ e.message

inductive CallError where
  | outOfRange (func : Int)
  | noSignature (func : Int)
  | arguments (func : Int) (expected actual : Nat)
  | notExported (name : String)

def CallError.message : CallError → String
  | outOfRange i => "function index " ++ toString i ++ " out of range"
  | noSignature i => "function " ++ toString i ++ " has no signature"
  | arguments i expected actual =>
    "function " ++ toString i ++ " expects " ++ toString expected ++ " arguments, got " ++
      toString actual
  | notExported name => "no exported function " ++ Text.quote name

/-- The outcome of a bounded number of steps. -/
inductive Progress (ω : Type) where
  | running (s : State ω)
  | done (ending : Ending) (world : World ω)

namespace Processor

variable {ω : Type}

/-- Finds the host function or the block structure for one function. -/
def linkFunc (hosts : List (String × HostFunc ω)) (index : Nat) (f : Func) :
    Except LinkError (Link ω) :=
  match f.body with
  | .host space name =>
    match hosts.lookup (space ++ "." ++ name) with
    | some h => .ok (.host h)
    | none => .error (.unresolved (space ++ "." ++ name))
  | .reserved => .error (.incomplete (.neverDefined index))
  | .code locals instrs =>
    match scanBlocks instrs with
    | .ok blocks => .ok (.code blocks (locals.map Val.zero))
    | .error e => .error (.unbalanced index f.name e)

/-- Links a list of functions whose first one has a given index. -/
def linkAll (hosts : List (String × HostFunc ω)) : Nat → List Func →
    Except LinkError (List (Link ω))
  | _, [] => .ok []
  | i, f :: fs => do
    let l ← linkFunc hosts i f
    let ls ← linkAll hosts (i + 1) fs
    return l :: ls

def link (program : Module) (hosts : List (String × HostFunc ω)) :
    Except LinkError (Processor ω) := do
  match program.validate with
  | .error e => .error (.incomplete e)
  | .ok () =>
    let links ← linkAll hosts 0 program.funcs.toList
    return { program, links := links.toArray }

/-- At most `n` steps from a state. -/
def runFor (m : Processor ω) : Nat → State ω → Progress ω
  | 0, s => .running s
  | n + 1, s =>
    match m.step s with
    | .next s' => runFor m n s'
    | .done ending w => .done ending w

/-- A number of steps that the instruction budget cannot exceed from a given count on: every
step executes an instruction or returns from an activation that an instruction opened. Without
a budget it is beyond what any run reaches. -/
def stepBound (m : Processor ω) (steps : Nat) : Nat :=
  if 0 < m.maxSteps then 2 * (m.maxSteps.toNat - steps) + 8 else 0x4000000000000000

def start (m : Processor ω) (w : World ω) (func : Int) (args : List Val) :
    Except CallError (Step ω) :=
  match at? m.program.funcs func with
  | none => .error (.outOfRange func)
  | some _ =>
    match m.program.signature? func with
    | none => .error (.noSignature func)
    | some type =>
      if type.params.length = args.length then .ok (m.enter func args w 0 [])
      else .error (.arguments func type.params.length args.length)

def callFor (m : Processor ω) (n : Nat) (w : World ω) (func : Int) (args : List Val) :
    Except CallError (Progress ω) :=
  match m.start w func args with
  | .error e => .error e
  | .ok (.next s) => .ok (m.runFor n s)
  | .ok (.done ending w') => .ok (.done ending w')

def call (m : Processor ω) (w : World ω) (func : Int) (args : List Val) :
    Except CallError (Progress ω) :=
  m.callFor (m.stepBound w.steps) w func args

def invoke (m : Processor ω) (w : World ω) (name : String) (args : List Val) :
    Except CallError (Progress ω) :=
  match m.program.exported? name with
  | some func => m.call w func args
  | none => .error (.notExported name)

end Processor

end HeapScript.Machine
