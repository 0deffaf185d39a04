import HeapScript.Machine.Instr
import HeapScript.Text.Quoted

/-!
# Modules

A module is built up step by step: types, functions, exports, memories and data segments are
appended and referred to by their index. A function index can be reserved first and receive its
body later.
-/

namespace HeapScript.Machine

inductive FuncBody where
  /-- Reserved, without a body yet. -/
  | reserved
  /-- Supplied by the host under a two-part name. -/
  | host (space name : String)
  /-- Instructions over the parameters and further locals. -/
  | code (locals : List ValType) (instrs : Array Instr)

structure Func where
  name : String
  /-- The index of the signature, -1 while it is not known. -/
  type : Int
  body : FuncBody

namespace Func

def isSet (f : Func) : Bool :=
  match f.body with
  | .reserved => false
  | _ => true

end Func

inductive ExportKind where
  | func | memory
  deriving DecidableEq

structure Export where
  name : String
  kind : ExportKind
  index : Int

/-- A linear memory, sized in pages. -/
structure Memory where
  min : Int
  max : Int

structure DataSegment where
  offset : Int
  bytes : Bytes

structure Module where
  types : Array TypeDef := #[]
  funcs : Array Func := #[]
  exports : Array Export := #[]
  memories : Array Memory := #[]
  data : Array DataSegment := #[]

def at? {α : Type} (xs : Array α) (i : Int) : Option α :=
  match i with
  | .ofNat n => xs[n]?
  | .negSucc _ => none

namespace ValType

/-- Whether two types are written alike: they are equal, or neither has a meaning. -/
def alike : ValType → ValType → Bool
  | unknown _, unknown _ => true
  | a, b => a == b

def allAlike : List ValType → List ValType → Bool
  | [], [] => true
  | a :: as, b :: bs => a.alike b && allAlike as bs
  | _, _ => false

end ValType

/-- Whether a definition is the signature with these parameters and results. -/
def TypeDef.isSignature (params results : List ValType) : TypeDef → Bool
  | .func ps rs => ValType.allAlike ps params && ValType.allAlike rs results
  | _ => false

inductive DefineError where
  | outOfRange (index : Int)
  | isImport (index : Int)
  | alreadyDefined (index : Int) (name : String)
  | notSignature (name : String) (type : Int)

def DefineError.message : DefineError → String
  | outOfRange i => "function index " ++ toString i ++ " out of range"
  | isImport i => "function index " ++ toString i ++ " is an import"
  | alreadyDefined i name =>
    "function index " ++ toString i ++ " (" ++ name ++ ") already defined"
  | notSignature name t => "function " ++ name ++ ": " ++ toString t ++ " is not a function type"

inductive ValidateError where
  | neverDefined (index : Nat)
  | missingExport (name : String) (index : Int)

def ValidateError.message : ValidateError → String
  | neverDefined i => "function index " ++ toString i ++ " was reserved but never defined"
  | missingExport name i =>
    "export " ++ Text.quote name ++ " refers to missing function " ++ toString i

namespace Module

/-- The index of a signature, added unless an equal one exists. -/
def addType (m : Module) (params results : List ValType) : Nat × Module :=
  match m.types.findIdx? (TypeDef.isSignature params results) with
  | some i => (i, m)
  | none => (m.types.size, { m with types := m.types.push (.func params results) })

def addStruct (m : Module) (fields : List Field) : Nat × Module :=
  (m.types.size, { m with types := m.types.push (.struct fields) })

def addArray (m : Module) (elem : Field) : Nat × Module :=
  (m.types.size, { m with types := m.types.push (.array elem) })

def addImport (m : Module) (space name : String) (type : Int) : Nat × Module :=
  (m.funcs.size, { m with funcs := m.funcs.push ⟨space ++ "." ++ name, type, .host space name⟩ })

/-- Hands out a function index whose body follows later. -/
def reserve (m : Module) : Nat × Module :=
  (m.funcs.size, { m with funcs := m.funcs.push ⟨"", -1, .reserved⟩ })

def isSignatureIndex (m : Module) (type : Int) : Bool :=
  ((at? m.types type).map TypeDef.isFunc).getD false

/-- Gives a reserved function its name, signature and body. -/
def define (m : Module) (index : Int) (name : String) (type : Int) (locals : List ValType)
    (instrs : Array Instr) : Except DefineError Module :=
  match at? m.funcs index with
  | none => .error (.outOfRange index)
  | some f =>
    match f.body with
    | .host .. => .error (.isImport index)
    | .code .. => .error (.alreadyDefined index f.name)
    | .reserved =>
      if m.isSignatureIndex type then
        .ok { m with funcs := m.funcs.setIfInBounds index.toNat ⟨name, type, .code locals instrs⟩ }
      else .error (.notSignature name type)

def addExport (m : Module) (name : String) (kind : ExportKind) (index : Int) : Module :=
  { m with exports := m.exports.push ⟨name, kind, index⟩ }

def addMemory (m : Module) (min max : Int) : Nat × Module :=
  (m.memories.size, { m with memories := m.memories.push ⟨min, max⟩ })

def addData (m : Module) (offset : Int) (bytes : Bytes) : Nat × Module :=
  (m.data.size, { m with data := m.data.push ⟨offset, bytes⟩ })

/-- The signature of a function, if the function and its type exist. -/
def signature? (m : Module) (func : Int) : Option TypeDef := do
  let f ← at? m.funcs func
  at? m.types f.type

def exported? (m : Module) (name : String) : Option Int :=
  (m.exports.find? fun e => e.kind == .func && e.name == name).map Export.index

def funcNamed? (m : Module) (name : String) : Option Nat :=
  m.funcs.findIdx? fun f => f.name == name

def openIndex? (m : Module) : Option Nat := m.funcs.findIdx? fun f => !f.isSet

def brokenExport? (m : Module) : Option Export :=
  m.exports.find? fun e => e.kind == .func && (at? m.funcs e.index).isNone

/-- Checks that every reserved function has a body and every export exists. -/
def validate (m : Module) : Except ValidateError Unit :=
  match m.openIndex? with
  | some i => .error (.neverDefined i)
  | none =>
    match m.brokenExport? with
    | some e => .error (.missingExport e.name e.index)
    | none => .ok ()

end Module

end HeapScript.Machine
