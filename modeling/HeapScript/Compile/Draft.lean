import HeapScript.Compile.Declarations
import HeapScript.Compile.Rep
import HeapScript.Library.Routine

/-!
# Drafting a function

The state in which the code of one function is drafted, and the steps every construct needs:
variables, temporaries, conversions between representations, string constants and helper
functions. Code is the result of a step, never part of the state.
-/

namespace HeapScript.Compile

open Machine Library

/-! ## What functions share -/

inductive Helper where
  /-- Calls a method on whatever class the receiver has. -/
  | dispatcher (method : String) (args : Nat)
  /-- Finds the slot of a property from a class number. -/
  | slotFinder (prop : String)
  deriving DecidableEq, Repr

/-- The string constants and helpers of a module, in the order of their first use. -/
structure Pool where
  strings : Array Bytes
  helpers : Array Helper := #[]

namespace Pool

def intern (p : Pool) (s : Bytes) : Nat × Pool :=
  match p.strings.idxOf? s with
  | some i => (i, p)
  | none => (p.strings.size, { p with strings := p.strings.push s })

def helper (p : Pool) (h : Helper) : Nat × Pool :=
  match p.helpers.idxOf? h with
  | some i => (i, p)
  | none => (p.helpers.size, { p with helpers := p.helpers.push h })

end Pool

/-! ## State -/

/-- What is fixed while a function is drafted. -/
structure Context where
  decls : Declarations
  links : Links
  name : String
  facts : FunctionFacts := {}
  /-- Whether the function runs the statements of the program itself. -/
  isMain : Bool := false
  optimize : Bool
  /-- How many copies of the body of a counted loop run between two jumps. -/
  unroll : Int

/-- The function number of the first helper. -/
def Context.helperBase (c : Context) : Nat := c.links.base + 2 + Routine.all.length

/-- A variable: where it is and what is settled about it. -/
structure Variable where
  slot : Nat
  storage : Storage
  className : Option String
  definite : Bool

def Variable.rep (v : Variable) : Rep := .ofType v.storage.type

structure Draft where
  layout : Layout
  vars : List (String × Variable) := []
  pool : Pool
  /-- What there is to say about it, a line each. -/
  notes : Array String := #[]

abbrev Gen := ExceptT Diagnostic (StateM Draft)

structure Piece where
  code : Code
  rep : Rep

namespace Gen

def fail {α : Type} (d : Diagnostic) : Gen α := throw d

def note (line : String) : Gen Unit := modify fun s => { s with notes := s.notes.push line }

/-! ## Variables and temporaries -/

/-- A variable; it gets its local when it is first met. -/
def findVar (c : Context) (name : String) : Gen Variable := do
  let s ← get
  match s.vars.lookup name with
  | some v => return v
  | none =>
    let f := c.facts.lookup name
    let (slot, layout) := s.layout.declare (Rep.ofType f.storage.type).valType
    let v : Variable := ⟨slot, f.storage, f.className, f.definite⟩
    set { s with layout := layout, vars := (name, v) :: s.vars }
    return v

def typeOf (c : Context) (s : Draft) (name : String) : StaticType :=
  match s.vars.lookup name with
  | some v => v.storage.type
  | none => c.facts.typeOf name

/-- What is known about an expression. Without optimization nothing is. -/
def typeFor (c : Context) (e : Expr) : Gen StaticType := do
  let s ← get
  return if c.optimize then e.staticType (typeOf c s) else .unknown

def temp (r : Rep) : Gen Nat := do
  let s ← get
  let (slot, layout) := s.layout.allocate r.slotKind
  set { s with layout := layout }
  return slot

def release (slot : Nat) : Gen Unit := do
  let s ← get
  match s.layout.release slot with
  | .ok layout => set { s with layout := layout }
  | .error e => fail (.broken e.message {})

def releaseAll : List Nat → Gen Unit
  | [] => pure ()
  | t :: rest => do
    release t
    releaseAll rest

def bytes (s : Bytes) : Gen Code := do
  let d ← get
  let (segment, pool) := d.pool.intern s
  set { d with pool := pool }
  return Code.bytesLiteral s.length segment

def helper (c : Context) (h : Helper) : Gen Code := do
  let d ← get
  let (i, pool) := d.pool.helper h
  set { d with pool := pool }
  return [.call (c.helperBase + i)]

/-! ## Representations -/

def boxTag : Rep → Tag
  | .float => .float
  | .bool => .bool
  | _ => .int

def box (r : Rep) : Gen Code := do
  let t ← temp r
  release t
  return Code.store t ++ Code.boxLocal (boxTag r) t r.valType

def convert (c : Context) (got want : Rep) : Gen Code :=
  if got = want then pure []
  else match got, want with
    | _, .void => pure [.drop]
    | .void, _ => fail (.broken (c.name ++ ": no value to convert to " ++ want.name) {})
    | .boxed, .int => pure (c.links.call .toInt)
    | .boxed, .float => pure (c.links.call .toFloat)
    | .boxed, .bool => pure (c.links.call .toBool)
    | .boxed, .boxed => pure []
    | .int, .float => pure [.f64ConvertI64S]
    | .int, .bool => pure (Code.const64 0 ++ [.i64Rel .ne])
    | .int, .int => pure []
    | .float, .int => pure [.i64TruncSatF64S]
    | .float, .bool => pure (Code.constF 0 ++ [.f64Rel .ne])
    | .float, .float => pure []
    | .bool, .int => pure [.i64ExtendI32U]
    | .bool, .float => pure [.i64ExtendI32U, .f64ConvertI64S]
    | .bool, .bool => pure []
    | r, .boxed => box r

/-- A piece of code that leaves its value in a given representation. -/
def asRep (c : Context) (p : Piece) (want : Rep) : Gen Code := do
  return p.code ++ (← convert c p.rep want)

end Gen

end HeapScript.Compile
