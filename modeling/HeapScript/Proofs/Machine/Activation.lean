import HeapScript.Machine.Run
import HeapScript.Proofs.Machine.Balanced

/-!
# Activations

The run of one activation of a function, read off its structured code instead of positions and
labels. The code still to be executed is a list of instructions, and what follows the constructs
around it is kept beside it. Calls are run to their end on the way.

A round is a loop that starts over or a call that is entered. All other steps are free, so that the
code in front of a run can be executed without a change of its bound.
-/

namespace HeapScript.Machine

/-- What an activation computes with: the heap, the host, its locals and its operands. -/
structure Cfg (ω : Type) where
  heap : Heap
  host : ω
  locals : List Val
  stack : List Val

/-- What is fixed for an activation: the name of the function, the number of its results, and how
many activations are open with it. -/
structure Act where
  func : String
  results : Nat
  depth : Nat

/-- What follows the code inside an entered construct. -/
inductive Cont where
  | block (rest : List Instr) (height arity : Nat)
  | loop (body rest : List Instr) (height : Nat)

/-- The code behind a construct. -/
def Cont.rest : Cont → List Instr
  | block rest _ _ => rest
  | loop _ rest _ => rest

/-- How the run of an activation ends. -/
inductive Final (ω : Type) where
  | returned (results : List Val) (heap : Heap) (host : ω)
  | trapped (func : String) (reason : TrapReason) (heap : Heap) (host : ω)
  | more
  | stuck

/-- What one instruction that is neither control flow nor a call does. -/
inductive Effect (ω : Type) where
  | next (c : Cfg ω)
  | trap (reason : TrapReason)
  | stuck

/-- A function as a call finds it. -/
inductive Callee (ω : Type) where
  | host (name : String) (run : HostFunc ω)
  | code (name : String) (results : Nat) (locals : List Val) (body : List Instr)

namespace Cfg

variable {ω : Type}

/-- The state of a machine that computes with a configuration and nothing else. -/
def state (c : Cfg ω) : State ω where
  heap := c.heap
  host := c.host
  steps := 0
  depth := 0
  frame := {
    func := "", results := 0, code := #[], blocks := #[], locals := c.locals.toArray,
    stack := c.stack }
  callers := []

/-- The lowest operands, as many as there were at some height. -/
def cut (height : Nat) (stack : List Val) : List Val := stack.drop (stack.length - height)

@[simp] theorem cut_self (stack : List Val) : cut stack.length stack = stack := by
  simp [cut]

@[simp] theorem cut_zero (stack : List Val) : cut 0 stack = [] := by
  simp [cut]

end Cfg

namespace Processor

variable {ω : Type}

def effect (m : Processor ω) (i : Instr) (c : Cfg ω) : Effect ω :=
  match m.exec c.state i with
  | .next s => .next ⟨s.heap, s.host, s.frame.locals.toList, s.frame.stack⟩
  | .done (.trapped t) _ => .trap t.reason
  | .done _ _ => .stuck

def callee? (m : Processor ω) (func : Int) : Option (Callee ω) :=
  match at? m.program.funcs func with
  | none => none
  | some f =>
    match at? m.program.types f.type with
    | none => none
    | some type =>
      match f.body, at? m.links func with
      | .host .., some (.host run) => some (.host f.name run)
      | .code _ instrs, some (.code _ locals) =>
        some (.code f.name type.results.length locals instrs.toList)
      | _, _ => none

/-- Whether no further activation may be opened. -/
def full (m : Processor ω) (depth : Nat) : Bool := 0 < m.maxDepth ∧ m.maxDepth < (depth + 1 : Nat)

def giveBack (a : Act) (c : Cfg ω) : Final ω :=
  match Frame.popMany a.results c.stack [] with
  | some (results, _) => .returned results c.heap c.host
  | none => .stuck

inductive Next (ω : Type) where
  | go (code : List Instr) (conts : List Cont) (c : Cfg ω)
  /-- Starts a loop over. -/
  | again (code : List Instr) (conts : List Cont) (c : Cfg ω)
  | ends (f : Final ω)
  /-- Runs another activation and goes on with its results. -/
  | enter (inner : Act) (body : List Instr) (c : Cfg ω) (rest : List Instr) (locals stack : List Val)

/-- Where a jump to an enclosing construct goes on: a loop starts over, any other construct is
left with its result on top of the operands it was entered with. -/
def jump (d : Int) (conts : List Cont) (c : Cfg ω) : Next ω :=
  if d < 0 then .ends .stuck
  else
    match conts.drop d.toNat with
    | [] => .ends .stuck
    | .loop body rest height :: outer =>
      if height ≤ c.stack.length then
        .again body (.loop body rest height :: outer) { c with stack := Cfg.cut height c.stack }
      else .ends .stuck
    | .block rest height arity :: outer =>
      if height + arity ≤ c.stack.length then
        .go rest outer { c with stack := c.stack.take arity ++ Cfg.cut height c.stack }
      else .ends .stuck

/-- Enters an `if` with the operands below its condition. -/
def enterIf (t : ValType) (holds : Bool) (rest : List Instr) (conts : List Cont) (c : Cfg ω) :
    Next ω :=
  let after := .block (splitClose 0 rest).2 c.stack.length t.arity :: conts
  if holds then .go (splitElse 0 (splitClose 0 rest).1).1 after c
  else
    match (splitElse 0 (splitClose 0 rest).1).2 with
    | some no => .go no after c
    | none => .go (splitClose 0 rest).2 conts c

def enterCall (m : Processor ω) (a : Act) (func : Int) (rest : List Instr) (conts : List Cont)
    (c : Cfg ω) : Next ω :=
  match m.program.signature? func with
  | none => .ends .stuck
  | some type =>
    match Frame.popMany type.params.length c.stack [], m.callee? func with
    | some (args, stack), some (.host name f) =>
      match f ⟨c.heap, c.host, 0⟩ args with
      | .results vs w => .go rest conts ⟨w.heap, w.host, c.locals, vs.reverse ++ stack⟩
      | .failed message => .ends (.trapped name (.host message) c.heap c.host)
      | .malformed => .ends .stuck
    | some (args, stack), some (.code name results locals body) =>
      if m.full a.depth then .ends (.trapped name .callStackExhausted c.heap c.host)
      else
        .enter ⟨name, results, a.depth + 1⟩ body ⟨c.heap, c.host, args ++ locals, []⟩ rest c.locals
          stack
    | _, _ => .ends .stuck

/-- Executes an instruction that is neither control flow nor a call. -/
def afterEffect (m : Processor ω) (a : Act) (i : Instr) (rest : List Instr) (conts : List Cont)
    (c : Cfg ω) : Next ω :=
  match m.effect i c with
  | .next c => .go rest conts c
  | .trap reason => .ends (.trapped a.func reason c.heap c.host)
  | .stuck => .ends .stuck

/-- What an activation does next, given the code that is left, what follows the constructs around
it, and the configuration. -/
def next (m : Processor ω) (a : Act) (code : List Instr) (conts : List Cont) (c : Cfg ω) :
    Next ω :=
  match code, conts with
  | [], [] => .ends (giveBack a c)
  | [], k :: conts => .go k.rest conts c
  | i :: rest, conts =>
    match i with
    | .block t =>
      .go (splitClose 0 rest).1 (.block (splitClose 0 rest).2 c.stack.length t.arity :: conts) c
    | .loop =>
      .go (splitClose 0 rest).1
        (.loop (splitClose 0 rest).1 (splitClose 0 rest).2 c.stack.length :: conts) c
    | .branchIf t =>
      match c.stack with
      | .i32 x :: stack => enterIf t (x ≠ 0) rest conts { c with stack := stack }
      | _ => .ends .stuck
    | .br d => jump d conts c
    | .brIf d =>
      match c.stack with
      | .i32 x :: stack =>
        if x ≠ 0 then jump d conts { c with stack := stack }
        else .go rest conts { c with stack := stack }
      | _ => .ends .stuck
    | .ret => .ends (giveBack a c)
    | .call func => enterCall m a func rest conts c
    | .otherwise | .close => .ends .stuck
    | i => afterEffect m a i rest conts c

/-! ## Rounds

Between two rounds the run only moves forward in its code, so it needs no bound there. -/

/-- Bounds the steps until the next round from above. -/
def weight (code : List Instr) (conts : List Cont) : Nat :=
  2 * code.length + (conts.map fun k => 2 * k.rest.length + 1).sum

@[simp] theorem weight_cons (i : Instr) (code : List Instr) (conts : List Cont) :
    weight (i :: code) conts = weight code conts + 2 := by
  simp [weight]
  omega

@[simp] theorem weight_cont (code : List Instr) (k : Cont) (conts : List Cont) :
    weight code (k :: conts) = 2 * code.length + weight k.rest conts + 1 := by
  simp [weight]
  omega

theorem weight_eq (code : List Instr) (conts : List Cont) :
    weight code conts = 2 * code.length + weight [] conts := by
  simp [weight]

theorem weight_drop (n : Nat) (conts : List Cont) : weight [] (conts.drop n) ≤ weight [] conts := by
  induction n generalizing conts with
  | zero => simp
  | succ n ih =>
    cases conts with
    | nil => simp
    | cons k conts =>
      have h := ih conts
      rw [List.drop_succ_cons, weight_cont, weight_eq k.rest]
      omega

/-- The code that comes next in an activation weighs less than a bound. -/
def Next.Below (conts : List Cont) (w : Nat) : Next ω → Prop
  | .go code' conts' _ => weight code' conts' < w
  | .enter _ _ _ rest _ _ => weight rest conts < w
  | .again .. | .ends _ => True

theorem jump_below {d : Int} {conts : List Cont} {c : Cfg ω} {w : Nat}
    (hw : weight [] conts < w) : (jump d conts c).Below conts w := by
  have hd := weight_drop d.toNat conts
  unfold jump
  split
  · trivial
  split
  · trivial
  · split <;> trivial
  · rename_i heq
    split
    · rw [heq, weight_cont] at hd
      simp only [Cont.rest] at hd
      simp only [Next.Below]
      omega
    · trivial

theorem enterIf_below (t : ValType) (holds : Bool) (rest : List Instr) (conts : List Cont)
    (c : Cfg ω) : (enterIf t holds rest conts c).Below conts (weight rest conts + 2) := by
  have hs := splitClose_length 0 rest
  have hy := splitElse_length 0 (splitClose 0 rest).1
  rw [weight_eq rest]
  unfold enterIf
  split
  · simp only [Next.Below, weight_cont, Cont.rest, weight_eq (splitClose 0 rest).2]
    omega
  · split
    · rename_i no hno
      have hn := splitElse_length_some hno
      simp only [Next.Below, weight_cont, Cont.rest, weight_eq (splitClose 0 rest).2]
      omega
    · simp only [Next.Below, weight_eq (splitClose 0 rest).2]
      omega

theorem next_below {m : Processor ω} {a : Act} {code : List Instr} {conts : List Cont}
    {c : Cfg ω} {x : Next ω} (h : m.next a code conts c = x) :
    x.Below conts (weight code conts) := by
  subst h
  unfold next
  split
  · trivial
  · simp [Next.Below]
  · rename_i i rest
    have hs := splitClose_length 0 rest
    have hw : weight [] conts < weight (i :: rest) conts := by
      rw [weight_cons, weight_eq rest]
      omega
    rw [weight_cons, weight_eq rest] at hw ⊢
    split
    · simp only [Next.Below, weight_cont, Cont.rest, weight_eq (splitClose 0 rest).2]
      omega
    · simp only [Next.Below, weight_cont, Cont.rest, weight_eq (splitClose 0 rest).2]
      omega
    · split
      · rw [← weight_eq rest]
        exact enterIf_below ..
      · trivial
    · exact jump_below hw
    · split
      · split
        · exact jump_below hw
        · simp only [Next.Below, weight_eq rest]
          omega
      · trivial
    · trivial
    · unfold enterCall
      repeat' split
      all_goals first | trivial | simp [Next.Below, weight_eq rest]
    · trivial
    · trivial
    · unfold afterEffect
      split
      · simp [Next.Below, weight_eq rest]
      all_goals trivial

def run (m : Processor ω) (n : Nat) (a : Act) (code : List Instr) (conts : List Cont)
    (c : Cfg ω) : Final ω :=
  match _ : m.next a code conts c with
  | .go code conts c => run m n a code conts c
  | .again code conts c =>
    match n with
    | 0 => .more
    | n + 1 => run m n a code conts c
  | .ends f => f
  | .enter inner body ci rest locals stack =>
    match n with
    | 0 => .more
    | n + 1 =>
      match run m n inner body [] ci with
      | .returned vs heap host =>
        run m (n + 1) a rest conts ⟨heap, host, locals, vs.reverse ++ stack⟩
      | other => other
termination_by (n, weight code conts)
decreasing_by
  · have hb := next_below ‹m.next a _ _ _ = _›
    exact Prod.Lex.right _ hb
  · exact Prod.Lex.left _ _ (Nat.lt_succ_self _)
  · exact Prod.Lex.left _ _ (Nat.lt_succ_self _)
  · have hb := next_below ‹m.next a _ _ _ = _›
    exact Prod.Lex.right _ hb

end Processor

end HeapScript.Machine
