import HeapScript.Machine.Module

/-!
# Structured control flow

Every `block`, `loop` and `if` is ended by an `end`, nested like brackets, and an `else` stands
directly inside an `if`. `scanBlocks` checks a body for that and finds, for each construct, its
`end` and the last `else` that belongs to it.
-/

namespace HeapScript.Machine

/-- Where the construct opened at an instruction continues. -/
structure Block where
  /-- The last `else` directly inside. -/
  elseAt : Option Nat := none
  /-- The matching `end`. -/
  endAt : Nat := 0
  deriving Inhabited, DecidableEq

inductive BlockError where
  | elseWithoutIf (pc : Nat)
  | unbalancedEnd (pc : Nat)
  | unterminated (count : Nat)
  deriving DecidableEq

def BlockError.message : BlockError → String
  | elseWithoutIf pc => "else without if at " ++ toString pc
  | unbalancedEnd pc => "unbalanced end at " ++ toString pc
  | unterminated n => toString n ++ " unterminated blocks"

/-- A construct that is still open: where it starts and whether it is an `if`. -/
structure OpenBlock where
  start : Nat
  isIf : Bool
  deriving DecidableEq

def Instr.isBranchIf : Instr → Bool
  | .branchIf _ => true
  | _ => false

/-- Walks a body from `pc` on with the constructs open there, innermost first. -/
def scanFrom : List Instr → (pc : Nat) → List OpenBlock → Array Block →
    Except BlockError (Array Block)
  | [], _, [], blocks => .ok blocks
  | [], _, opened@(_ :: _), _ => .error (.unterminated opened.length)
  | i :: rest, pc, opened, blocks =>
    match i with
    | .block _ | .loop | .branchIf _ =>
      scanFrom rest (pc + 1) (⟨pc, i.isBranchIf⟩ :: opened) blocks
    | .otherwise =>
      match opened with
      | ⟨start, true⟩ :: _ =>
        scanFrom rest (pc + 1) opened (blocks.modify start fun b => { b with elseAt := some pc })
      | _ => .error (.elseWithoutIf pc)
    | .close =>
      match opened with
      | ⟨start, _⟩ :: outer =>
        scanFrom rest (pc + 1) outer (blocks.modify start fun b => { b with endAt := pc })
      | [] => .error (.unbalancedEnd pc)
    | _ => scanFrom rest (pc + 1) opened blocks

/-- The extent of every construct of a body, indexed by the instruction that opens it. -/
def scanBlocks (code : Array Instr) : Except BlockError (Array Block) :=
  scanFrom code.toList 0 [] (Array.replicate code.size {})

end HeapScript.Machine
