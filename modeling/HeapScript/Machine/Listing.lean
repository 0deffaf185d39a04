import HeapScript.Machine.Module

/-!
# Listings

The readable text of a module: its types, memories, data segments, functions with indented
bodies, and exports. Bodies need not be balanced, but one that closes more than it opened
leaves no indentation to write its next line at.
-/

namespace HeapScript.Machine

/-- A listing cannot go on: a body closes more constructs than it opened. -/
inductive ListingError where
  | negativeIndent

def ListingError.message : ListingError → String
  | negativeIndent => "strings: negative Repeat count"

/-- The change of indentation before the line of an instruction. -/
def Instr.indentBefore : Instr → Int
  | .close | .otherwise => -1
  | _ => 0

def Instr.indentAfter : Instr → Int
  | .block _ | .loop | .branchIf _ | .otherwise => 1
  | _ => 0

def bodyLines : List Instr → Int → Except ListingError (List String)
  | [], _ => .ok []
  | i :: rest, depth =>
    let depth := depth + i.indentBefore
    if depth < 0 then .error .negativeIndent
    else do
      let lines ← bodyLines rest (depth + i.indentAfter)
      return ("".pushn ' ' (2 * depth.toNat) ++ i.text) :: lines

def Func.lines (index : Nat) (f : Func) : Except ListingError (List String) :=
  let head := "  (func " ++ toString index ++ " $" ++ f.name ++ " (type " ++ toString f.type ++ ")"
  match f.body with
  | .host space name =>
    .ok ["  (import " ++ Text.quote space ++ " " ++ Text.quote name ++ " (func " ++ toString index ++
      " (type " ++ toString f.type ++ ")))"]
  | .reserved => .ok [head, "  )"]
  | .code locals instrs => do
    let declared := if locals.isEmpty then [] else
      ["    (local " ++ String.intercalate " " (locals.map ValType.text) ++ ")"]
    let body ← bodyLines instrs.toList 2
    return head :: (declared ++ body ++ ["  )"])

def Export.line (e : Export) : String :=
  let kind := match e.kind with
    | .func => "func"
    | .memory => "memory"
  "  (export " ++ Text.quote e.name ++ " (" ++ kind ++ " " ++ toString e.index ++ "))"

namespace Module

def typeLines (m : Module) : List String :=
  m.types.toList.zipIdx.map fun (t, i) => "  (type " ++ toString i ++ " " ++ t.text ++ ")"

def memoryLines (m : Module) : List String :=
  m.memories.toList.zipIdx.map fun (mem, i) =>
    "  (memory " ++ toString i ++ " " ++ toString mem.min ++ " " ++ toString mem.max ++ ")"

def dataLines (m : Module) : List String :=
  m.data.toList.zipIdx.map fun (d, i) =>
    "  (data " ++ toString i ++ " (offset " ++ toString d.offset ++ ") " ++
      Text.quoteBytes d.bytes ++ ")"

def funcLines (m : Module) : Except ListingError (List (List String)) :=
  m.funcs.toList.zipIdx.mapM fun (f, i) => f.lines i

def lines (m : Module) : Except ListingError (List String) := do
  let funcs ← m.funcLines
  return ["(module"] ++ m.typeLines ++ m.memoryLines ++ m.dataLines ++ funcs.flatten ++
    (m.exports.toList.map Export.line) ++ [")"]

def listing (m : Module) : Except ListingError String := do
  let lines ← m.lines
  return String.join (lines.map (· ++ "\n"))

end Module

end HeapScript.Machine
