import HeapScript.Machine.Arithmetic
import HeapScript.Machine.Blocks

/-!
# One step of the machine

A state of the machine is the heap, the state of the host, the number of instructions executed
so far, the running activation and the activations that wait for it. `Processor.step` either
gives the next state or says how the run ends: with results, with a trap, or because the code
is malformed (an operand, label, local or index it uses does not exist or has the wrong kind).
-/

namespace HeapScript.Machine

/-! ## Activations -/

/-- A construct that has been entered and not left. -/
structure Label where
  isLoop : Bool
  start : Nat
  finish : Nat
  height : Nat
  arity : Nat
  deriving DecidableEq

/-- An activation of a function. -/
structure Frame where
  func : String
  results : Nat
  code : Array Instr
  blocks : Array Block
  locals : Array Val
  pc : Nat := 0
  /-- The operands, the top one first. -/
  stack : List Val := []
  /-- The operands taken off above the top, the nearest first; a branch to a construct that was
  entered with more operands than there are now finds them again. -/
  spent : List Val := []
  /-- The entered constructs, the innermost first. -/
  labels : List Label := []

namespace Frame

/-- Takes operands off until a given number of them has gone. -/
def lower : Nat → List Val → List Val → List Val × List Val
  | n + 1, v :: stack, spent => lower n stack (v :: spent)
  | _, stack, spent => (stack, spent)

/-- Puts taken operands back, null where there never was one. -/
def raise : Nat → List Val → List Val → List Val × List Val
  | 0, stack, spent => (stack, spent)
  | n + 1, stack, v :: spent => raise n (v :: stack) spent
  | n + 1, stack, [] => raise n (.null :: stack) []

def toHeight (height : Nat) (stack spent : List Val) : List Val × List Val :=
  let n := stack.length
  if height ≤ n then lower (n - height) stack spent else raise (height - n) stack spent

/-- Pushes operands, the last one on top. -/
def pushAll : List Val → Frame → Frame
  | [], f => f
  | v :: vs, f => pushAll vs { f with stack := v :: f.stack, spent := f.spent.tail }

/-- The upper `n` operands in the order they were pushed, and the operands below. -/
def popMany : Nat → List Val → List Val → Option (List Val × List Val)
  | 0, stack, taken => some (taken, stack)
  | _ + 1, [], _ => none
  | n + 1, v :: stack, taken => popMany n stack (v :: taken)

/-- Whether a number of operands, beyond the smaller ones, fills the room for them, which grows by a
quarter and 192 in units of 512. -/
def fillsLarge : (fuel room : Nat) → (operands : Nat) → Bool
  | 0, _, _ => false
  | fuel + 1, room, n =>
    if room < n then fillsLarge fuel ((room + (room + 768) / 4 + 511) / 512 * 512) n else room == n

/-- Whether a number of operands fills the room for them, so that more has to be made for the next
one. -/
def fillsRoom (n : Nat) : Bool :=
  [16, 32, 71, 143, 303, 591, 1023, 1535].contains n || fillsLarge 64 2560 n

/-- Branches to the construct `depth` levels out. A loop starts over with the operands it was
entered with; any other construct is left with its results on top of them. A result that is not
there is taken from above the operands, if there is room. -/
def branch (depth : Int) (stack spent : List Val) (f : Frame) : Option Frame :=
  match depth with
  | .negSucc _ => none
  | .ofNat d =>
    match f.labels.drop d with
    | [] => none
    | target :: outer =>
      if target.isLoop then
        let (stack, spent) := toHeight target.height stack spent
        some { f with stack, spent, labels := target :: outer, pc := target.start + 1 }
      else
        let n := stack.length
        if n < target.height ∨ n < target.arity then none
        else if n < target.height + target.arity ∧ spent.isEmpty ∧ fillsRoom n then none
        else
          let (kept, above) := lower (n - target.height) stack spent
          if target.arity = 0 then
            some { f with stack := kept, spent := above, labels := outer, pc := target.finish + 1 }
          else
            let result := if n = target.height then above.headD .null else stack.headD .null
            some { f with
              stack := result :: kept, spent := above.tail, labels := outer,
              pc := target.finish + 1 }

end Frame

/-! ## Machines -/

structure Trap where
  func : String
  pc : Nat
  reason : TrapReason
  deriving DecidableEq

def Trap.message (t : Trap) : String :=
  "trap in " ++ t.func ++ " at " ++ toString t.pc ++ ": " ++ t.reason.message

inductive Ending where
  | returned (results : List Val)
  | trapped (trap : Trap)
  | malformed

/-- What survives a call: the heap, the state of the host and the instruction counter. -/
structure World (ω : Type) where
  heap : Heap := #[]
  host : ω
  steps : Nat := 0

inductive Reply (ω : Type) where
  | results (vs : List Val) (world : World ω)
  | failed (message : String)
  | malformed

abbrev HostFunc (ω : Type) := World ω → List Val → Reply ω

/-- What a machine prepares for each function. -/
inductive Link (ω : Type) where
  | host (f : HostFunc ω)
  | code (blocks : Array Block) (locals : List Val)

structure Processor (ω : Type) where
  program : Module
  links : Array (Link ω)
  /-- The most instructions that may be executed, 0 for no bound. -/
  maxSteps : Int := 0
  /-- The most activations that may be open at once, 0 for no bound. -/
  maxDepth : Int := 2000

structure State (ω : Type) where
  heap : Heap
  host : ω
  steps : Nat
  /-- The number of open activations. -/
  depth : Nat
  frame : Frame
  callers : List Frame

inductive Step (ω : Type) where
  | next (s : State ω)
  | done (ending : Ending) (world : World ω)

namespace Processor

variable {ω : Type}

/-- Hands results to the activation that waits for them, or ends the run. -/
def deliver (results : List Val) (w : World ω) (depth : Nat) : List Frame → Step ω
  | [] => .done (.returned results) w
  | f :: callers => .next ⟨w.heap, w.host, w.steps, depth, f.pushAll results, callers⟩

/-- Calls a function with its arguments on behalf of the waiting activations. -/
def enter (m : Processor ω) (func : Int) (args : List Val) (w : World ω) (depth : Nat)
    (callers : List Frame) : Step ω :=
  match at? m.program.funcs func with
  | none => .done .malformed w
  | some f =>
    match at? m.program.types f.type with
    | none => .done .malformed w
    | some type =>
      match f.body with
      | .reserved => .done .malformed w
      | .host .. =>
        match at? m.links func with
        | some (.host run) =>
          match run w args with
          | .results vs w' => deliver vs w' depth callers
          | .failed message => .done (.trapped ⟨f.name, 0, .host message⟩) w
          | .malformed => .done .malformed w
        | _ => .done .malformed w
      | .code _ instrs =>
        if 0 < m.maxDepth ∧ m.maxDepth < (depth + 1 : Nat) then
          .done (.trapped ⟨f.name, 0, .callStackExhausted⟩) w
        else
          match at? m.links func with
          | some (.code blocks locals) =>
            .next ⟨w.heap, w.host, w.steps, depth + 1,
              { func := f.name, results := type.results.length, code := instrs, blocks,
                locals := (args ++ locals).toArray }, callers⟩
          | _ => .done .malformed w

def leave (s : State ω) : Step ω :=
  let w : World ω := ⟨s.heap, s.host, s.steps⟩
  match Frame.popMany s.frame.results s.frame.stack [] with
  | none => .done .malformed w
  | some (results, _) => deliver results w (s.depth - 1) s.callers

end Processor

namespace State

variable {ω : Type}

def world (s : State ω) : World ω := ⟨s.heap, s.host, s.steps⟩

def malformed (s : State ω) : Step ω := .done .malformed s.world

def trap (s : State ω) (reason : TrapReason) : Step ω :=
  .done (.trapped ⟨s.frame.func, s.frame.pc, reason⟩) s.world

@[inline]
def goto (s : State ω) (pc : Nat) (stack spent : List Val) : Step ω :=
  match s with
  | ⟨heap, host, steps, depth, f, callers⟩ =>
    .next ⟨heap, host, steps, depth, { f with pc, stack, spent }, callers⟩

@[inline]
def continueWith (s : State ω) (stack spent : List Val) : Step ω :=
  match s with
  | ⟨heap, host, steps, depth, f, callers⟩ =>
    .next ⟨heap, host, steps, depth, { f with pc := f.pc + 1, stack, spent }, callers⟩

/-- Goes on after the running instruction with these operands and another heap. -/
@[inline]
def continueIn (s : State ω) (heap : Heap) (stack spent : List Val) : Step ω :=
  match s with
  | ⟨_, host, steps, depth, f, callers⟩ =>
    .next ⟨heap, host, steps, depth, { f with pc := f.pc + 1, stack, spent }, callers⟩

@[inline]
def push (s : State ω) (v : Val) : Step ω :=
  let stack := s.frame.stack
  let spent := s.frame.spent
  s.continueWith (v :: stack) spent.tail

@[inline]
def replaceTop (s : State ω) (f : Val → Option Val) : Step ω :=
  match s.frame.stack with
  | v :: stack =>
    match f v with
    | some r =>
      let spent := s.frame.spent
      s.continueWith (r :: stack) spent
    | none => s.malformed
  | [] => s.malformed

@[inline]
def combine (s : State ω) (f : Val → Val → Option (Except TrapReason Val)) : Step ω :=
  match s.frame.stack with
  | b :: a :: stack =>
    match f a b with
    | some (.ok r) =>
      let spent := s.frame.spent
      s.continueWith (r :: stack) (b :: spent)
    | some (.error reason) => s.trap reason
    | none => s.malformed
  | _ => s.malformed

end State

/-! ## Instructions -/

namespace Processor

variable {ω : Type}

/-- Enters the construct that starts at the running instruction. -/
def openLabel (s : State ω) (isLoop : Bool) (arity pc : Nat) (stack spent : List Val) : Step ω :=
  match s with
  | ⟨heap, host, steps, depth, f, callers⟩ =>
    let finish := ((f.blocks[f.pc]?).getD {}).endAt
    let label : Label := ⟨isLoop, f.pc, finish, stack.length, arity⟩
    .next ⟨heap, host, steps, depth, { f with pc, stack, spent, labels := label :: f.labels },
      callers⟩

/-- A branch out of, or back to the start of, an entered construct. -/
def branchTo (s : State ω) (depth : Int) (stack spent : List Val) : Step ω :=
  match s.frame.branch depth stack spent with
  | some f => .next { s with frame := f }
  | none => s.malformed

def execControl (s : State ω) : Instr → Step ω
  | .unreachable => s.trap .unreachable
  | .block t => openLabel s false t.arity (s.frame.pc + 1) s.frame.stack s.frame.spent
  | .loop => openLabel s true 0 (s.frame.pc + 1) s.frame.stack s.frame.spent
  | .branchIf t =>
    match s.frame.stack with
    | .i32 c :: stack =>
      let spent := .i32 c :: s.frame.spent
      let block := (s.frame.blocks[s.frame.pc]?).getD {}
      if c ≠ 0 then openLabel s false t.arity (s.frame.pc + 1) stack spent
      else
        match block.elseAt with
        | some pc => openLabel s false t.arity (pc + 1) stack spent
        | none => s.goto (block.endAt + 1) stack spent
    | _ => s.malformed
  | .otherwise =>
    match s.frame.labels with
    | l :: _ => s.goto l.finish s.frame.stack s.frame.spent
    | [] => s.malformed
  | .close =>
    match s with
    | ⟨heap, host, steps, depth, f, callers⟩ =>
      match f.labels with
      | _ :: labels => .next ⟨heap, host, steps, depth, { f with pc := f.pc + 1, labels }, callers⟩
      | [] => (State.mk heap host steps depth f callers).malformed
  | .br d => branchTo s d s.frame.stack s.frame.spent
  | .brIf d =>
    match s.frame.stack with
    | .i32 c :: stack =>
      let spent := .i32 c :: s.frame.spent
      if c ≠ 0 then branchTo s d stack spent else s.continueWith stack spent
    | _ => s.malformed
  | _ => s.continueWith s.frame.stack s.frame.spent

/-- A call: the arguments are taken off and the caller waits after the instruction. -/
def execCall (m : Processor ω) (s : State ω) (func : Int) : Step ω :=
  match m.program.signature? func with
  | none => s.malformed
  | some type =>
    match s with
    | ⟨heap, host, steps, depth, f, callers⟩ =>
      match Frame.popMany type.params.length f.stack [] with
      | none => (State.mk heap host steps depth f callers).malformed
      | some (args, stack) =>
        enter m func args ⟨heap, host, steps⟩ depth
          ({ f with pc := f.pc + 1, stack, spent := args ++ f.spent } :: callers)

def execLocal (s : State ω) : Instr → Step ω
  | .localGet i =>
    match at? s.frame.locals i with
    | some v => s.push v
    | none => s.malformed
  | .localSet i =>
    match s with
    | ⟨heap, host, steps, depth, f, callers⟩ =>
      match f.stack with
      | v :: stack =>
        if 0 ≤ i ∧ i.toNat < f.locals.size then
          .next ⟨heap, host, steps, depth,
            { f with
              pc := f.pc + 1, stack, spent := v :: f.spent,
              locals := f.locals.setIfInBounds i.toNat v }, callers⟩
        else (State.mk heap host steps depth f callers).malformed
      | [] => (State.mk heap host steps depth f callers).malformed
  | .localTee i =>
    match s with
    | ⟨heap, host, steps, depth, f, callers⟩ =>
      match f.stack with
      | v :: _ =>
        if 0 ≤ i ∧ i.toNat < f.locals.size then
          .next ⟨heap, host, steps, depth,
            { f with pc := f.pc + 1, locals := f.locals.setIfInBounds i.toNat v }, callers⟩
        else (State.mk heap host steps depth f callers).malformed
      | [] => (State.mk heap host steps depth f callers).malformed
  | _ => s.malformed

/-- The instructions that compute a number from the upper operands. -/
def execNumeric (s : State ω) : Instr → Step ω
  | .i32Const n => s.push (.i32 (Int32.ofInt n))
  | .i64Const n => s.push (.i64 n)
  | .f64Const x => s.push (.f64 x)
  | .i32 op => s.combine fun
    | .i32 a, .i32 b => some ((op.eval a b).map .i32)
    | _, _ => none
  | .i64 op => s.combine fun
    | .i64 a, .i64 b => some ((op.eval a b).map .i64)
    | _, _ => none
  | .i64Rel op => s.combine fun
    | .i64 a, .i64 b => some (.ok (.ofBool (op.eval a b)))
    | _, _ => none
  | .f64 op => s.combine fun
    | .f64 a, .f64 b => some (.ok (.f64 (op.eval a b)))
    | _, _ => none
  | .f64Rel op => s.combine fun
    | .f64 a, .f64 b => some (.ok (.ofBool (op.eval a b)))
    | _, _ => none
  | .i32Eqz => s.replaceTop fun
    | .i32 a => some (.ofBool (a == 0))
    | _ => none
  | .i64Eqz => s.replaceTop fun
    | .i64 a => some (.ofBool (a == 0))
    | _ => none
  | .f64Neg => s.replaceTop fun
    | .f64 a => some (.f64 (-a))
    | _ => none
  | .i32WrapI64 => s.replaceTop fun
    | .i64 a => some (.i32 a.toInt32)
    | _ => none
  | .i64ExtendI32S => s.replaceTop fun
    | .i32 a => some (.i64 a.toInt64)
    | _ => none
  | .i64ExtendI32U => s.replaceTop fun
    | .i32 a => some (.i64 a.toUInt32.toUInt64.toInt64)
    | _ => none
  | .f64ConvertI64S => s.replaceTop fun
    | .i64 a => some (.f64 (Int64.nearestFloat a))
    | _ => none
  | .i64TruncSatF64S => s.replaceTop fun
    | .f64 a => some (.i64 (Float.truncSat a))
    | _ => none
  | _ => s.malformed

def execRecord (m : Processor ω) (s : State ω) : Instr → Step ω
  | .refNull _ => s.push .null
  | .refIsNull => s.replaceTop fun v => some (.ofBool v.isNull)
  | .refEq => s.combine fun a b => some (.ok (.ofBool (a.same b)))
  | .refTest t =>
    match s.frame.stack with
    | v :: stack =>
      s.continueWith (.ofBool (s.heap.typeOf v == t) :: stack) s.frame.spent
    | [] => s.malformed
  | .refCast t =>
    match s.frame.stack with
    | v :: stack =>
      if v.isNull || s.heap.typeOf v == t then s.continueWith (v :: stack) s.frame.spent
      else s.trap (.castFailed t)
    | [] => s.malformed
  | .structNew t =>
    match at? m.program.types t with
    | none => s.malformed
    | some type =>
      match s with
      | ⟨heap, host, steps, depth, f, callers⟩ =>
        match Frame.popMany type.fieldCount f.stack [] with
        | none => (State.mk heap host steps depth f callers).malformed
        | some (fields, stack) =>
          let r := Val.ref heap.size
          .next ⟨heap.push (.struct t fields.toArray), host, steps, depth,
            { f with
              pc := f.pc + 1, stack := r :: stack, spent := (fields ++ f.spent).tail }, callers⟩
  | .structGet _ field =>
    match s.frame.stack with
    | r :: stack =>
      match s.heap.struct? r with
      | none => s.trap .notStruct
      | some (_, fields) =>
        match at? fields field with
        | some v => s.continueWith (v :: stack) s.frame.spent
        | none => s.malformed
    | [] => s.malformed
  | .structSet _ field =>
    match s.frame.stack with
    | v :: r :: stack =>
      match (s.heap.struct? r).map fun (addr, fields) => (addr, fields.size) with
      | none => s.trap .notStruct
      | some (addr, size) =>
        if 0 ≤ field ∧ field.toNat < size then
          match s with
          | ⟨heap, host, steps, depth, f, callers⟩ =>
            .next ⟨heap.setField addr field.toNat v, host, steps, depth,
              { f with pc := f.pc + 1, stack, spent := r :: v :: f.spent }, callers⟩
        else s.malformed
    | _ => s.malformed
  | _ => s.malformed

/-- Whether an index lies in an array, read as an unsigned number. -/
def inBounds (i : Int32) (n : Nat) : Bool := i.toUInt32.toNat < n

/-- A store into an array; elements of byte arrays keep their low byte. -/
def execArraySet (m : Processor ω) (s : State ω) : Step ω :=
  match s.frame.stack with
  | v :: .i32 i :: r :: stack =>
    match (s.heap.array? r).map fun (addr, t, elems) => (addr, t, elems.size) with
    | none => s.trap .notArray
    | some (addr, t, size) =>
      if inBounds i size then
        match at? m.program.types t with
        | none => s.malformed
        | some type =>
          match (if type.elem = .i8 then (Heap.byte? v).map fun b => .i32 b.toUInt32.toInt32
              else some v) with
          | none => s.malformed
          | some stored =>
            match s with
            | ⟨heap, host, steps, depth, f, callers⟩ =>
              .next ⟨heap.setElem addr i.toUInt32.toNat stored, host, steps, depth,
                { f with pc := f.pc + 1, stack, spent := r :: .i32 i :: v :: f.spent }, callers⟩
      else s.trap (.indexOutOfBounds i size)
  | _ => s.malformed

/-- A copy of consecutive elements, which may overlap. -/
def execArrayCopy (s : State ω) : Step ω :=
  match s.frame.stack with
  | .i32 n :: .i32 srcOff :: src :: rest =>
    match s.heap.array? src with
    | none => s.trap .notArray
    | some (_, _, source) =>
      match rest with
      | .i32 dstOff :: dst :: stack =>
        match (s.heap.array? dst).map fun (addr, _, elems) => (addr, elems.size) with
        | none => s.trap .notArray
        | some (addr, size) =>
          let count := n.toInt
          if count < 0 ∨ srcOff.toInt < 0 ∨ dstOff.toInt < 0 ∨ srcOff.toInt + count > source.size ∨
              dstOff.toInt + count > size then s.trap .copyOutOfBounds
          else
            let start := srcOff.toInt.toNat
            let moved := source.extract start (start + count.toNat)
            match s with
            | ⟨heap, host, steps, depth, f, callers⟩ =>
              .next ⟨heap.setElems addr dstOff.toInt.toNat moved, host, steps, depth,
                { f with
                  pc := f.pc + 1, stack,
                  spent := dst :: .i32 dstOff :: src :: .i32 srcOff :: .i32 n :: f.spent },
                callers⟩
      | _ => s.malformed
  | _ => s.malformed

def execArray (m : Processor ω) (s : State ω) : Instr → Step ω
  | .arrayNewDefault t =>
    match s.frame.stack with
    | .i32 n :: stack =>
      if n < 0 then s.trap .negativeLength
      else
        match at? m.program.types t with
        | none => s.malformed
        | some type =>
          let elems := Array.replicate n.toInt.toNat (Val.zero type.elem)
          let (r, heap) := s.heap.alloc (.array t elems)
          s.continueIn heap (r :: stack) s.frame.spent
    | _ => s.malformed
  | .arrayNewData t segment =>
    match s.frame.stack with
    | .i32 n :: .i32 off :: stack =>
      match at? m.program.data segment with
      | none => s.malformed
      | some d =>
        if off.toInt < 0 ∨ n.toInt < 0 ∨ off.toInt + n.toInt > d.bytes.length then
          s.trap .dataOutOfBounds
        else
          let (r, heap) := s.heap.allocBytes t ((d.bytes.drop off.toInt.toNat).take n.toInt.toNat)
          s.continueIn heap (r :: stack) (.i32 n :: s.frame.spent)
    | _ => s.malformed
  | .arrayGet _ | .arrayGetU _ =>
    match s.frame.stack with
    | .i32 i :: r :: stack =>
      match s.heap.array? r with
      | none => s.trap .notArray
      | some (_, _, elems) =>
        match elems[i.toUInt32.toNat]? with
        | some v => s.continueWith (v :: stack) (.i32 i :: s.frame.spent)
        | none => s.trap (.indexOutOfBounds i elems.size)
    | _ => s.malformed
  | .arraySet _ => execArraySet m s
  | .arrayLen =>
    match s.frame.stack with
    | r :: stack =>
      match s.heap.array? r with
      | none => s.trap .notArray
      | some (_, _, elems) =>
        s.continueWith (.i32 (Int32.ofInt elems.size) :: stack) s.frame.spent
    | [] => s.malformed
  | .arrayCopy .. => execArrayCopy s
  | _ => s.malformed

def exec (m : Processor ω) (s : State ω) (i : Instr) : Step ω :=
  match i with
  | .unreachable | .nop | .block _ | .loop | .branchIf _ | .otherwise | .close | .br _ | .brIf _ =>
    execControl s i
  | .ret => leave s
  | .call func => execCall m s func
  | .drop =>
    match s.frame.stack with
    | v :: stack => s.continueWith stack (v :: s.frame.spent)
    | [] => s.malformed
  | .localGet _ | .localSet _ | .localTee _ => execLocal s i
  | .refNull _ | .refIsNull | .refEq | .refTest _ | .refCast _ | .structNew _ | .structGet ..
  | .structSet .. => execRecord m s i
  | .arrayNewDefault _ | .arrayNewData .. | .arrayGet _ | .arrayGetU _ | .arraySet _ | .arrayLen
  | .arrayCopy .. => execArray m s i
  | .unknown code => s.trap (.unknownOpcode code)
  | _ => execNumeric s i

/-- Whether the instruction counter has passed the bound of the machine. -/
def exhausted (m : Processor ω) (steps : Nat) : Bool := 0 < m.maxSteps ∧ m.maxSteps < steps

/-- One step: an instruction, or the return at the end of a body. -/
def step (m : Processor ω) (s : State ω) : Step ω :=
  match s.frame.code[s.frame.pc]? with
  | none => leave s
  | some i =>
    match s with
    | ⟨heap, host, steps, depth, frame, callers⟩ =>
      let s : State ω := ⟨heap, host, steps + 1, depth, frame, callers⟩
      if m.exhausted (steps + 1) then s.trap .stepLimit else exec m s i

end Processor

end HeapScript.Machine
