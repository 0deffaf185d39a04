import HeapScript.Compile.Program
import HeapScript.Machine.Run

/-!
# Running programs

A compiled program runs on a machine whose host collects what is written and renders floats.
-/

namespace HeapScript.Execution

open Machine Library Compile

abbrev Output := Array UInt8

def echo : HostFunc Output := fun w args =>
  match args with
  | [v] =>
    match w.heap.array? v with
    | some (_, _, elems) =>
      match Heap.bytes? elems with
      | some bs => .results [] { w with host := w.host ++ bs }
      | none => .malformed
    | none => .failed "echo of a null string"
  | _ => .malformed

def renderFloat : HostFunc Output := fun w args =>
  match args with
  | [.f64 x] =>
    let (v, heap) := w.heap.allocBytes Shape.bytes (textBytes (displayFloat x))
    .results [v] { w with heap := heap }
  | _ => .malformed

def hosts : List (String × HostFunc Output) :=
  [("env.echo", echo), ("env.float_to_string", renderFloat)]

/-- The machine for a compiled program with an instruction budget, 0 for none. -/
def machineFor (c : Compiled) (maxSteps : Int) : Except Failure (Processor Output) :=
  match Processor.link c.program hosts with
  | .ok m => .ok { m with maxSteps := maxSteps }
  | .error e => .error (.ofText e.message)

def freshWorld : World Output := { host := #[] }

/-- The failure of a call that did not return, and the world after a call. -/
def ended (w : World Output) : Except CallError (Progress Output) → Except Failure (List Val) × World Output
  | .ok (.done (.returned vs) w') => (.ok vs, w')
  | .ok (.done (.trapped t) w') => (.error (.stopped t), w')
  | .ok (.done .malformed w') => (.error .malformed, w')
  | .ok (.running s) => (.error (.ofText "still running"), ⟨s.heap, s.host, s.steps⟩)
  | .error e => (.error (.ofText e.message), w)

structure Finished where
  /-- Why it failed, if it did. -/
  failure : Option Failure
  world : World Output

def Finished.output (f : Finished) : Bytes := f.world.host.toList

def runMain (m : Processor Output) : Finished :=
  match ended freshWorld (m.invoke freshWorld "main" []) with
  | (.ok _, w) => ⟨none, w⟩
  | (.error f, w) => ⟨some f, w⟩

def Finished.note (f : Finished) : String :=
  "main executed " ++ toString f.world.steps ++ " instructions"

/-- Compiles and runs a program; a program that does not compile writes nothing. -/
def runProgram (p : Program) (o : Options) (maxSteps : Int) : Finished :=
  match (Program.compile p o).outcome with
  | .error f => ⟨some f, freshWorld⟩
  | .ok c =>
    match machineFor c maxSteps with
    | .error f => ⟨some f, freshWorld⟩
    | .ok m => runMain m

end HeapScript.Execution
