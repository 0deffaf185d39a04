import HeapScript.Conformance.Suite
import HeapScript.Execution.Run
import HeapScript.Tree.Source

/-!
# Running conformance cases

A case passes if its program does what is expected: it is refused with the given error, or its
run is stopped, or it writes exactly the given output.
-/

namespace HeapScript.Conformance

open Compile Execution Text

/-- What came of a case. -/
structure Verdict where
  skipped : Bool := false
  passed : Bool := false
  output : Bytes := []
  failure : Option Failure := none
  notes : List String := []

def occursIn (part : Bytes) : Bytes → Bool
  | [] => part.isEmpty
  | b :: bs => part.isPrefixOf (b :: bs) || occursIn part bs

/-- Why a finished run is not what the case expects. -/
def Case.complaint? (c : Case) (done : Finished) : Option Failure :=
  match c.trap, done.failure with
  | true, none =>
    some (.ofText ("ran to completion, expected a trap (output " ++ quoteBytes done.output ++ ")"))
  | true, some _ => none
  | false, some f => some f
  | false, none =>
    if done.output = c.output then none
    else some (.ofText ("output " ++ quoteBytes done.output ++ ", expected " ++ quoteBytes c.output))

def Case.load (c : Case) (file : String) : Except Diagnostic Program :=
  match c.program with
  | some root => Program.ofNode file root
  | none => .error (LoadError.diagnostic file ⟨⟨0, 0⟩, .notSequence "an empty node"⟩)

/-- The verdict on a compiled program that should run. -/
def Case.judgeRun (c : Case) (notes : List String) (compiled : Compiled) (maxSteps : Int) : Verdict :=
  match machineFor compiled maxSteps with
  | .error f => { failure := some f, notes := notes }
  | .ok m =>
    let done := runMain m
    let failure := c.complaint? done
    { passed := failure.isNone, output := done.output, failure := failure, notes := notes ++ [done.note] }

def Case.judge (c : Case) (file : String) (o : Options) (maxSteps : Int) : Verdict :=
  if c.skip ≠ [] then { skipped := true }
  else
    match c.load file with
    | .error d => { failure := some (.unreadable d) }
    | .ok p =>
      let compilation := Program.compile p o
      let notes := compilation.notes
      match compilation.outcome with
      | .error f =>
        if c.error ≠ [] ∧ occursIn c.error f.message then { passed := true, notes := notes }
        else { failure := some f, notes := notes }
      | .ok compiled =>
        if c.error ≠ [] then
          { failure := some (.ofText ("compiled, expected an error containing " ++ quoteBytes c.error))
            notes := notes }
        else c.judgeRun notes compiled maxSteps

/-- The numbers of verdicts of each kind. -/
structure Tally where
  passed : Nat := 0
  failed : Nat := 0
  skipped : Nat := 0
  deriving DecidableEq, Repr

namespace Tally

def add (t : Tally) (v : Verdict) : Tally :=
  if v.skipped then { t with skipped := t.skipped + 1 }
  else if v.passed then { t with passed := t.passed + 1 }
  else { t with failed := t.failed + 1 }

def ofVerdicts (vs : List Verdict) : Tally := vs.foldl add {}

def text (t : Tally) : String :=
  toString t.passed ++ " passed, " ++ toString t.failed ++ " failed, " ++ toString t.skipped ++ " skipped"

end Tally

end HeapScript.Conformance
