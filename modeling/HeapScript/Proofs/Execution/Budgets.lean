import HeapScript.Proofs.Compile.Sessions
import HeapScript.Proofs.Machine.Budget

/-!
# Programs with an instruction budget

A budget only cuts the run of a program short. A run that ends within it is the same without it, and
any other run traps at the first instruction too many, having written what all longer runs begin
with.
-/

namespace HeapScript.Execution

open Machine Machine.Processor Library Compile

def report : Ending → World Output → Finished
  | .returned _, w => ⟨none, w⟩
  | .trapped t, w => ⟨some (.stopped t), w⟩
  | .malformed, w => ⟨some .malformed, w⟩

/-- Whether the run of a compiled program without a budget returns before its first instruction. -/
def idle (c : Compiled) : Bool :=
  match machineFor c 0 with
  | .error _ => false
  | .ok m =>
    match m.callFor 1 freshWorld c.main [] with
    | .ok (.done (.returned []) w) => w.steps == 0
    | _ => false

end HeapScript.Execution
