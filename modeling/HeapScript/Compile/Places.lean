import HeapScript.Compile.Operators

/-!
# Places

A place is what can be written: a variable, a property, or an element of an array that hangs at
one of them. The object and the keys of a place are evaluated once, from left to right, into
temporaries; then the place can be read and written.

A write goes through every array on the way down. What is not an array there becomes a new one,
and since a write may replace an array by another, every level is stored back into the one above.
-/

namespace HeapScript.Compile

open Machine Library
open Code (load store keep const32 const64 constF)

structure PropRef where
  object : Nat
  /-- The slot, if the class of the object is known. -/
  slot : Option Nat
  name : String

/-- A key in a temporary, or the place behind the last element. -/
inductive Key where
  | int (slot : Nat)
  | boxed (slot : Nat)
  | append

def Key.temps : Key → List Nat
  | int slot | boxed slot => [slot]
  | append => []

/-- What a chain of keys hangs at. -/
inductive Root where
  | var (name : String)
  | prop (ref : PropRef)

/-- A place whose parts are evaluated. Without keys it is its root. -/
structure Place where
  root : Root
  keys : List Key := []

def Place.temps (p : Place) : List Nat :=
  (match p.root with
    | .var _ => []
    | .prop ref => [ref.object]) ++ p.keys.flatMap Key.temps

/-- Whether a place is behind the last element of an array. -/
def Place.appends (p : Place) : Bool :=
  match p.keys.getLast? with
  | some .append => true
  | _ => false

/-- Whether a subscript other than the last one has no key. -/
def appendsEarly : Expr → Bool
  | .index _ base _ => anyAppend base
  | _ => false
where
  /-- Whether any subscript has no key. -/
  anyAppend : Expr → Bool
    | .index _ base key => key.isNone || anyAppend base
    | _ => false

namespace Gen

/-! ## Properties -/

def classOf (c : Context) : Expr → Gen (Option ClassInfo)
  | .var _ name => do return (← findVar c name).className.bind c.decls.class?
  | .create _ name _ => pure (c.decls.class? name)
  | _ => pure none

def propRef (c : Context) (loc : Location) (object : Operand) (name : String) :
    Gen (PropRef × Code) := do
  if (c.decls.withProperty name).isEmpty then
    fail (.unknownSymbol "property" name c.decls.propertyNames loc)
  let cls ← classOf c object.expr
  let t ← temp .boxed
  let code ← value c object .boxed
  return (⟨t, cls.bind fun k => k.slot? name, name⟩, code ++ store t)

def propSlot (c : Context) (ref : PropRef) : Gen Code :=
  match ref.slot with
  | some i => pure (const32 i)
  | none => do
    return load ref.object ++ c.links.call .objClass ++ (← helper c (.slotFinder ref.name))

def readProp (c : Context) (ref : PropRef) : Gen Code := do
  return load ref.object ++ (← propSlot c ref) ++ c.links.call .objGet

def writeProp (c : Context) (ref : PropRef) (val : Nat) : Gen Code := do
  return load ref.object ++ (← propSlot c ref) ++ load val ++ c.links.call .objSet

/-! ## Elements -/

/-- Only the last subscript of a place may lack a key. -/
def checkSubscripts (target : Expr) : Gen Unit := do
  if appendsEarly target then fail (.unsupported "[] before the last subscript" target.loc)

/-- A key that is evaluated here, as an integer if it is one for sure. -/
def keyOf (c : Context) (k : Operand) : Gen (Key × Code) := do
  if (← typeFor c k.expr) = .int then
    let t ← temp .int
    return (.int t, (← value c k .int) ++ store t)
  else
    let t ← temp .boxed
    return (.boxed t, (← value c k .boxed) ++ store t)

def getKey (c : Context) : Key → Code
  | .int t => load t ++ c.links.call .arrGetInt
  | .boxed t => load t ++ c.links.call .arrGet
  | .append => []

/-- Stores a local under a key of the array on top and leaves the array to use from then on. -/
def setKey (c : Context) (val : Nat) : Key → Code
  | .int t => load t ++ load val ++ c.links.call .arrSetInt
  | .boxed t => load t ++ load val ++ c.links.call .arrSet
  | .append => load val ++ c.links.call .arrPush

/-- Puts the arrays from the one on top down to the innermost into temporaries. -/
def descend (c : Context) : List (Key × Nat) → Code
  | [] => []
  | [(_, t)] => c.links.call .arrAutoviv ++ store t
  | (k, t) :: rest =>
    c.links.call .arrAutoviv ++ store t ++ load t ++ getKey c k ++ descend c rest

/-- Stores a local into the innermost array and every array into the one above; leaves the
outermost one. -/
def ascend (c : Context) (val result : Nat) : List (Key × Nat) → Code
  | [] => []
  | [(k, t)] => load t ++ setKey c val k
  | (k, t) :: rest => ascend c val result rest ++ store result ++ load t ++ setKey c result k

/-! ## Reading and writing -/

def readRoot (c : Context) : Root → Gen Code
  | .var name => do return (← readVar c name).code
  | .prop ref => readProp c ref

def readPlace (c : Context) (loc : Location) (p : Place) : Gen Code := do
  if p.appends then fail (.unsupported "[] used for reading" loc)
  return (← readRoot c p.root) ++ p.keys.flatMap (getKey c)

/-- Temporaries for boxed values, one for each element of a list. -/
def tempsFor {α : Type} : List α → Gen (List Nat)
  | [] => pure []
  | _ :: rest => do
    let t ← temp .boxed
    return t :: (← tempsFor rest)

def rebind (c : Context) (result : Nat) : Root → Gen Code
  | .var name => do return store (← findVar c name).slot
  | .prop ref => do return store result ++ (← writeProp c ref result)

def writePlace (c : Context) (p : Place) (val : Nat) : Gen Code :=
  match p.root, p.keys with
  | .prop ref, [] => writeProp c ref val
  | root, keys => do
    let arrays ← tempsFor keys
    let result ← temp .boxed
    let levels := keys.zip arrays
    let top ← readRoot c root
    let bottom ← rebind c result root
    releaseAll arrays
    release result
    return top ++ descend c levels ++ ascend c val result levels ++ bottom

/-! ## Assignments -/

/-- What an assignment leaves: the local it wrote, if its value is used. -/
def kept (keeps : Bool) (slot : Nat) : Piece :=
  if keeps then ⟨load slot, .boxed⟩ else ⟨[], .void⟩

def assignVar (c : Context) (loc : Location) (op : Option CompoundOp) (target : Location)
    (name : String) (right : Operand) (keeps : Bool) : Gen Piece := do
  let v ← findVar c name
  let whole : Operand := match op with
    | none => right
    | some op =>
      let left : Operand := ⟨.var target name, fun _ => readVar c name⟩
      ⟨.binary loc op.binary left.expr right.expr, fun d => binary c loc op.binary left right d.best⟩
  let code ← value c whole v.rep
  return if keeps then ⟨code ++ keep v.slot, v.rep⟩ else ⟨code ++ store v.slot, .void⟩

def compoundRoutine : CompoundOp → Routine
  | .arith op => .arith op
  | .concat => .concat

def assignPlace (c : Context) (p : Place) (right : Operand) (keeps : Bool) : Gen Piece := do
  let val ← temp .boxed
  let code ← value c right .boxed
  let write ← writePlace c p val
  release val
  releaseAll p.temps
  let last := kept keeps val
  return ⟨code ++ store val ++ write ++ last.code, last.rep⟩

/-- An assignment that is combined with an operator, to a property or an element. -/
def updatePlace (c : Context) (loc : Location) (op : CompoundOp) (p : Place) (right : Operand)
    (keeps : Bool) : Gen Piece := do
  let old ← temp .boxed
  let read ← readPlace c loc p
  let val ← temp .boxed
  let code ← value c right .boxed
  let write ← writePlace c p val
  release val
  release old
  releaseAll p.temps
  let last := kept keeps val
  return ⟨read ++ store old ++ load old ++ code ++ c.links.call (compoundRoutine op) ++ store val ++
    write ++ last.code, last.rep⟩

/-- An assignment to a property or an element, combined with an operator if there is one. -/
def storePlace (c : Context) (loc : Location) (op : Option CompoundOp) (p : Place)
    (right : Operand) (keeps : Bool) : Gen Piece :=
  match op with
  | none => assignPlace c p right keeps
  | some op => updatePlace c loc op p right keeps

/-! ## Counting -/

def stepOp (increment : Bool) : ArithOp := if increment then .add else .sub

def boxedOne : Code := Code.newValue .int (const64 1) (constF 0) Code.noBytes Code.noRef

def stepNumber (v : Variable) (one : Code) (add : Instr) (before keeps : Bool) : Piece :=
  let step := load v.slot ++ one ++ [add]
  match keeps, before with
  | false, _ => ⟨step ++ store v.slot, .void⟩
  | true, true => ⟨step ++ keep v.slot, v.rep⟩
  | true, false => ⟨load v.slot ++ step ++ store v.slot, v.rep⟩

def stepBoxed (c : Context) (name : String) (v : Variable) (increment before keeps : Bool) :
    Gen Piece := do
  let old ← temp .boxed
  let read ← readVar c name
  release old
  let step := read.code ++ store old ++ load old ++ boxedOne ++
    c.links.call (.arith (stepOp increment))
  return match keeps, before with
    | false, _ => ⟨step ++ store v.slot, .void⟩
    | true, true => ⟨step ++ keep v.slot, .boxed⟩
    | true, false => ⟨step ++ store v.slot ++ load old, .boxed⟩

def stepVar (c : Context) (loc : Location) (name : String) (increment before keeps : Bool) :
    Gen Piece := do
  match (← get).vars.lookup name with
  | none => fail (.undefinedVariable name loc)
  | some v =>
    let op := arithInstr (stepOp increment)
    match v.storage with
    | .int => return stepNumber v (const64 1) (.i64 op.1) before keeps
    | .float => return stepNumber v (constF 1) (.f64 op.2) before keeps
    | .boxed => stepBoxed c name v increment before keeps

def stepPlace (c : Context) (loc : Location) (p : Place) (increment before keeps : Bool) :
    Gen Piece := do
  let old ← temp .boxed
  let val ← temp .boxed
  let read ← readPlace c loc p
  let write ← writePlace c p val
  release old
  release val
  releaseAll p.temps
  let last := kept keeps (if before then val else old)
  return ⟨read ++ store old ++ load old ++ boxedOne ++ c.links.call (.arith (stepOp increment)) ++
    store val ++ write ++ last.code, last.rep⟩

end Gen

end HeapScript.Compile
